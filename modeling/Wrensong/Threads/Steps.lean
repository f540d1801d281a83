import Wrensong.Threads.Defs

/-!
# What a step of the pool can do

`Step p a p'` has one constructor for each thing a step can do to the queue or to the pool; the steps at which a thread
only goes on, and perhaps locks or unlocks, are `Moves`. `step_iff` says that these are the steps of the model.
-/

namespace Wrensong.Threads

open Wrensong.Lib

/-- The thread has the mutex there. -/
def Worker.holds : Worker → Bool
  | .testing | .waiting | .checking | .taking => true
  | _ => false

def Waiter.holds : Waiter → Bool
  | .testing | .waiting => true
  | _ => false

/-- How a worker goes on without touching the queue, and who has the mutex then. -/
inductive Worker.Moves (p : Pool) (w : ℕ) : Worker → Worker → Option Thread → Prop
  | exit (hc : p.cancelled = true) : Moves p w .top .exited p.mutex
  | enter (hc : p.cancelled = false) : Moves p w .top .locking p.mutex
  | lock (hm : p.mutex = none) : Moves p w .locking .testing (some (.worker w))
  | relock (hm : p.mutex = none) : Moves p w .woken .testing (some (.worker w))
  | wait (hc : p.cancelled = false) (hq : p.q = none) : Moves p w .testing .waiting p.mutex
  | check (h : p.cancelled = true ∨ p.q ≠ none) : Moves p w .testing .checking p.mutex
  | sleep : Moves p w .waiting .asleep none
  | leave (hc : p.cancelled = true) : Moves p w .checking .exited none
  | pass (hc : p.cancelled = false) : Moves p w .checking .taking p.mutex

inductive Waiter.Moves (p : Pool) (c : ℕ) : Waiter → Waiter → Option Thread → Prop
  | lock (he : p.ending ≠ .returned) (hm : p.mutex = none) : Moves p c .locking .testing (some (.waiter c))
  | relock (he : p.ending ≠ .returned) (hm : p.mutex = none) : Moves p c .woken .testing (some (.waiter c))
  | wait (he : p.ending ≠ .returned) (hc : p.cancelled = false) (hr : p.remaining ≠ 0) : Moves p c .testing .waiting p.mutex
  | leave (he : p.ending ≠ .returned) (h : p.cancelled = true ∨ p.remaining = 0) : Moves p c .testing .returned none
  | sleep (he : p.ending ≠ .returned) : Moves p c .waiting .asleep none
  | loseLocking (he : p.ending = .returned) : Moves p c .locking .lost p.mutex
  | loseWoken (he : p.ending = .returned) : Moves p c .woken .lost p.mutex
  | loseTesting (he : p.ending = .returned) : Moves p c .testing .lost none
  | loseWaiting (he : p.ending = .returned) : Moves p c .waiting .lost none

/-! ### The states that steps leave -/

/-- Behind `pool_enqueue`, before the signal. -/
def Pool.push (p : Pool) (task : Task) : Pool :=
  { p with
    dangling := p.dangling ++ p.last.toList.filter (· ∈ p.freedNodes),
    nodes := match p.last with
      | some e => (p.nodes.alloc ⟨task, none⟩).setNext e (some p.nodes.next)
      | none => p.nodes.alloc ⟨task, none⟩,
    q := if p.q = none then some p.nodes.next else p.q, last := some p.nodes.next, remaining := p.remaining + 1 }

/-- Behind the take of the node `q`. -/
def Pool.taking (p : Pool) (w q : ℕ) (node : PoolQueue) : Pool :=
  { (p.deref q).setWorker w (.running q) with
    q := node.next, last := if some q = p.last then none else p.last, mutex := none, taken := p.taken ++ [q] }

/-- Behind the second critical section of a worker. -/
def Pool.finish (p : Pool) (w : ℕ) : Pool :=
  Pool.broadcast { p.setWorker w .top with remaining := p.remaining - 1, finished := p.finished + 1 }

/-- Behind a round of the last loop of `pool_end`. -/
def Pool.discard (p : Pool) (q : ℕ) (node : PoolQueue) : Pool :=
  Pool.freeNode { p with q := node.next, discarded := p.discarded ++ [q] } q node.value

/-- Which thread a signal wakes. -/
inductive Pool.Signals (p : Pool) : Option Thread → Pool → Prop
  | worker {w : ℕ} (h : p.workers.get? w = some .asleep) : Signals p (some (.worker w)) (p.setWorker w .woken)
  | waiter {c : ℕ} (h : p.waiters.get? c = some .asleep) : Signals p (some (.waiter c)) (p.setWaiter c .woken)
  | nobody (hw : ∀ w, p.workers.get? w ≠ some .asleep) (hc : ∀ c, p.waiters.get? c ≠ some .asleep) : Signals p none p

/-! ### The steps -/

inductive Step (p : Pool) : Action → Pool → Prop
  | enqueue {task : Task} {woken : Option Thread} {p' : Pool} (hm : p.mutex = none) (ha : p.ending.accepts = true)
      (hs : (p.push task).Signals woken p') : Step p (.enqueue task woken) p'
  | wait (ha : p.ending.accepts = true) : Step p .wait { p with waiters := p.waiters.alloc .locking }
  | cancel (he : p.ending = .notCalled) : Step p .endPool { p with cancelled := true, ending := .cancelled }
  | broadcast (he : p.ending = .cancelled) (hm : p.mutex = none) :
      Step p .endPool { p.broadcast with ending := .joining 0 }
  | join {i : ℕ} (he : p.ending = .joining i) (hw : p.workers.get? i = some .exited) :
      Step p .endPool { p with ending := .joining (i + 1) }
  | joined {i : ℕ} (he : p.ending = .joining i) (hi : p.workers.next ≤ i) :
      Step p .endPool { p with ending := .draining }
  | discard {q : ℕ} {node : PoolQueue} (he : p.ending = .draining) (hq : p.q = some q)
      (hn : p.nodes.get? q = some node) : Step p .endPool (p.discard q node)
  | return (he : p.ending = .draining) (hq : p.q = none) : Step p .endPool { p with ending := .returned }
  | worker {w : ℕ} {pc pc' : Worker} {mutex : Option Thread} (hw : p.workers.get? w = some pc)
      (h : Worker.Moves p w pc pc' mutex) :
      Step p (.worker w) { (p.use (.worker w)).setWorker w pc' with mutex := mutex }
  | take {w q : ℕ} {node : PoolQueue} (hw : p.workers.get? w = some .taking) (hq : p.q = some q)
      (hn : p.nodes.get? q = some node) : Step p (.worker w) ((p.use (.worker w)).taking w q node)
  | called {w q : ℕ} (hw : p.workers.get? w = some (.running q)) :
      Step p (.worker w) { (p.use (.worker w)).setWorker w (.freeing q) with done := p.done ++ [q] }
  | free {w q : ℕ} {node : PoolQueue} (hw : p.workers.get? w = some (.freeing q)) (hn : p.nodes.get? q = some node) :
      Step p (.worker w) (((p.use (.worker w)).freeNode q node.value).setWorker w .finishing)
  | finish {w : ℕ} (hw : p.workers.get? w = some .finishing) (hm : p.mutex = none) :
      Step p (.worker w) ((p.use (.worker w)).finish w)
  | waiter {c : ℕ} {pc pc' : Waiter} {mutex : Option Thread} (hc : p.waiters.get? c = some pc)
      (h : Waiter.Moves p c pc pc' mutex) :
      Step p (.waiter c) { (p.use (.waiter c)).setWaiter c pc' with mutex := mutex }
  | wakeWorker {w : ℕ} (hw : p.workers.get? w = some .asleep) :
      Step p (.spurious (.worker w)) (p.setWorker w .woken)
  | wakeWaiter {c : ℕ} (hc : p.waiters.get? c = some .asleep) :
      Step p (.spurious (.waiter c)) (p.setWaiter c .woken)

section Inversion

variable {p p' : Pool}

lemma wake_worker {w : ℕ} :
    p.wake (.worker w) = some p' ↔ p.workers.get? w = some .asleep ∧ p' = p.setWorker w .woken := by
  simp [Pool.wake, eq_comm]

lemma wake_waiter {c : ℕ} :
    p.wake (.waiter c) = some p' ↔ p.waiters.get? c = some .asleep ∧ p' = p.setWaiter c .woken := by
  simp [Pool.wake, eq_comm]

lemma signal_iff {t : Option Thread} : p.signal t = some p' ↔ p.Signals t p' := by
  constructor
  · intro h
    match t with
    | some (.worker w) =>
      obtain ⟨hw, rfl⟩ := wake_worker.1 h
      exact .worker hw
    | some (.waiter c) =>
      obtain ⟨hc, rfl⟩ := wake_waiter.1 h
      exact .waiter hc
    | none =>
      simp only [Pool.signal] at h
      split_ifs at h with hsleep
      rw [not_or] at hsleep
      cases h
      exact .nobody (fun w hw => hsleep.1 (List.mem_of_getElem? hw)) fun c hc => hsleep.2 (List.mem_of_getElem? hc)
  · rintro (hw | hc | ⟨hw, hc⟩)
    · exact wake_worker.2 ⟨hw, rfl⟩
    · exact wake_waiter.2 ⟨hc, rfl⟩
    · refine if_neg ?_
      rw [not_or]
      constructor
      · intro hm
        obtain ⟨w, hw'⟩ := List.mem_iff_getElem?.1 hm
        exact hw w hw'
      · intro hm
        obtain ⟨c, hc'⟩ := List.mem_iff_getElem?.1 hm
        exact hc c hc'

/-- `pool_enqueue` up to the signal. -/
lemma enqueue_eq {task : Task} {woken : Option Thread} (hm : p.mutex = none) (ha : p.ending.accepts = true) :
    p.enqueue task woken = (p.push task).signal woken := by
  unfold Pool.enqueue
  rw [if_pos ⟨hm, ha⟩]
  unfold Pool.push
  rcases hl : p.last with _ | e
  · simp
  · by_cases he : e ∈ p.freedNodes <;> simp [Pool.deref, he]

lemma enqueue_step {task : Task} {woken : Option Thread} :
    p.enqueue task woken = some p' ↔ Step p (.enqueue task woken) p' := by
  constructor
  · intro h
    by_cases hok : p.mutex = none ∧ p.ending.accepts = true
    · rw [enqueue_eq hok.1 hok.2] at h
      exact .enqueue hok.1 hok.2 (signal_iff.1 h)
    · rw [Pool.enqueue, if_neg hok] at h
      cases h
  · rintro ⟨hm, ha, hs⟩
    rw [enqueue_eq hm ha]
    exact signal_iff.2 hs

lemma endPool_step : p.endPool = some p' ↔ Step p .endPool p' := by
  constructor
  · intro h
    unfold Pool.endPool at h
    split at h
    · rename_i he
      cases h
      exact .cancel he
    · rename_i he
      split_ifs at h with hm
      cases h
      exact .broadcast he hm
    · rename_i i he
      split_ifs at h with hi hw
      · cases h
        exact .join he hw
      · cases h
        exact .joined he (not_lt.1 hi)
    · rename_i he
      split at h
      · rename_i hq
        cases h
        exact .return he hq
      · rename_i q hq
        obtain ⟨node, hn, rfl⟩ := Option.map_eq_some_iff.1 h
        exact .discard he hq hn
    · cases h
  · rintro (_ | _ | he | ⟨he, hm⟩ | ⟨he, hw⟩ | ⟨he, hi⟩ | ⟨he, hq, hn⟩ | ⟨he, hq⟩)
    · simp [Pool.endPool, he]
    · simp [Pool.endPool, he, hm]
    · simp [Pool.endPool, he, hw, Heap.lt_next hw]
    · simp [Pool.endPool, he, not_lt.2 hi]
    · simp [Pool.endPool, he, hq, hn, Pool.discard]
    · simp [Pool.endPool, he, hq]

lemma take_iff {w : ℕ} :
    p.take w = some p' ↔ ∃ q node, p.q = some q ∧ p.nodes.get? q = some node ∧ p' = p.taking w q node := by
  unfold Pool.take
  rcases hq : p.q with _ | q
  · simp
  rcases hn : p.nodes.get? q with _ | node
  · simp [hn]
  · simp [hn, Pool.taking, eq_comm]

lemma worker_step {w : ℕ} : (p.use (.worker w)).worker w = some p' ↔ Step p (.worker w) p' := by
  constructor
  · intro h
    unfold Pool.worker at h
    split at h
    · rename_i hw
      change some { (p.use (.worker w)).setWorker w (if p.cancelled = true then .exited else .locking) with
        mutex := p.mutex } = some p' at h
      split_ifs at h with hc
      · cases h
        exact .worker hw (.exit hc)
      · cases h
        exact .worker hw (.enter (by simpa using hc))
    · rename_i hw
      split_ifs at h with hm
      cases h
      exact .worker hw (.lock hm)
    · rename_i hw
      split_ifs at h with hm
      cases h
      exact .worker hw (.relock hm)
    · rename_i hw
      change some { (p.use (.worker w)).setWorker w (if p.cancelled = false ∧ p.q = none then .waiting else .checking) with
        mutex := p.mutex } = some p' at h
      split_ifs at h with ht
      · cases h
        exact .worker hw (.wait ht.1 ht.2)
      · cases h
        refine .worker hw (.check ?_)
        rwa [not_and_or, Bool.not_eq_false] at ht
    · rename_i hw
      cases h
      exact .worker hw .sleep
    · rename_i hw
      change some (if p.cancelled = true then { (p.use (.worker w)).setWorker w .exited with mutex := none }
        else { (p.use (.worker w)).setWorker w .taking with mutex := p.mutex }) = some p' at h
      split_ifs at h with hc
      · cases h
        exact .worker hw (.leave hc)
      · cases h
        exact .worker hw (.pass (by simpa using hc))
    · rename_i hw
      obtain ⟨q, node, hq, hn, rfl⟩ := take_iff.1 h
      exact .take hw hq hn
    · rename_i q hw
      cases h
      exact .called hw
    · rename_i q hw
      obtain ⟨node, hn, rfl⟩ := Option.map_eq_some_iff.1 h
      exact .free hw hn
    · rename_i hw
      split_ifs at h with hm
      cases h
      exact .finish hw hm
    all_goals cases h
  · intro h
    have huse : ∀ w', (p.use (.worker w)).workers.get? w' = p.workers.get? w' := fun _ => rfl
    have hmutex : (p.use (.worker w)).mutex = p.mutex := rfl
    have hcancelled : (p.use (.worker w)).cancelled = p.cancelled := rfl
    have hqueue : (p.use (.worker w)).q = p.q := rfl
    cases h with
    | worker hw h =>
      cases h with
      | exit hc | enter hc => simp [Pool.worker, huse, hw, hc, hcancelled, Pool.setWorker, hmutex]
      | lock hm | relock hm => simp [Pool.worker, huse, hw, hm, hmutex]
      | wait hc hq => simp [Pool.worker, huse, hw, hc, hq, hcancelled, hqueue, Pool.setWorker, hmutex]
      | check h =>
        have ht : ¬ (p.cancelled = false ∧ p.q = none) := by
          rwa [not_and_or, Bool.not_eq_false]
        simp [Pool.worker, huse, hw, hcancelled, hqueue, ht, Pool.setWorker, hmutex]
      | sleep => simp [Pool.worker, huse, hw]
      | leave hc | pass hc => simp [Pool.worker, huse, hw, hc, hcancelled, Pool.setWorker, hmutex]
    | take hw hq hn =>
      simp only [Pool.worker, huse, hw]
      exact take_iff.2 ⟨_, _, hq, hn, rfl⟩
    | called hw => simp only [Pool.worker, huse, hw]; rfl
    | free hw hn =>
      simp only [Pool.worker, huse, hw]
      exact Option.map_eq_some_iff.2 ⟨_, hn, rfl⟩
    | finish hw hm => simp [Pool.worker, huse, hw, hm, hmutex, Pool.finish]

lemma waiter_step {c : ℕ} : p.step (.waiter c) = some p' ↔ Step p (.waiter c) p' := by
  have huse : ∀ c', (p.use (.waiter c)).waiters.get? c' = p.waiters.get? c' := fun _ => rfl
  have hmutex : (p.use (.waiter c)).mutex = p.mutex := rfl
  have hcancelled : (p.use (.waiter c)).cancelled = p.cancelled := rfl
  have hremaining : (p.use (.waiter c)).remaining = p.remaining := rfl
  unfold Pool.step
  constructor
  · intro h
    by_cases he : p.ending = .returned
    · simp only [if_pos he, Pool.lose] at h
      split at h
      · cases h
        exact .waiter ‹_› (.loseLocking he)
      · cases h
        exact .waiter ‹_› (.loseWoken he)
      · cases h
        exact .waiter ‹_› (.loseTesting he)
      · cases h
        exact .waiter ‹_› (.loseWaiting he)
      all_goals cases h
    simp only [if_neg he, Pool.waiter] at h
    split at h
    · rename_i hc
      split_ifs at h with hm
      cases h
      exact .waiter hc (.lock he hm)
    · rename_i hc
      split_ifs at h with hm
      cases h
      exact .waiter hc (.relock he hm)
    · rename_i hc
      change some (if p.cancelled = false ∧ p.remaining ≠ 0 then
          { (p.use (.waiter c)).setWaiter c .waiting with mutex := p.mutex }
        else { (p.use (.waiter c)).setWaiter c .returned with mutex := none }) = some p' at h
      split_ifs at h with ht
      · cases h
        exact .waiter hc (.wait he ht.1 ht.2)
      · cases h
        refine .waiter hc (.leave he ?_)
        rwa [not_and_or, Bool.not_eq_false, not_not] at ht
    · rename_i hc
      cases h
      exact .waiter hc (.sleep he)
    all_goals cases h
  · intro h
    cases h with
    | waiter hc h =>
      cases h with
      | lock he hm | relock he hm => simp [Pool.waiter, he, huse, hc, hm, hmutex]
      | wait he h hr => simp [Pool.waiter, he, huse, hc, h, hr, hcancelled, hremaining, Pool.setWaiter, hmutex]
      | leave he h =>
        have ht : ¬ (p.cancelled = false ∧ p.remaining ≠ 0) := by
          rwa [not_and_or, Bool.not_eq_false, not_not]
        simp [Pool.waiter, he, huse, hc, hcancelled, hremaining, ht]
      | sleep he => simp [Pool.waiter, he, huse, hc]
      | loseLocking he | loseWoken he | loseTesting he | loseWaiting he =>
        simp [Pool.lose, he, huse, hc, Pool.setWaiter, hmutex]

/-- **The steps of the model** are the ones of `Step`. -/
theorem step_iff {a : Action} : p.step a = some p' ↔ Step p a p' := by
  cases a with
  | enqueue task woken => exact enqueue_step
  | wait =>
    constructor
    · intro h
      simp only [Pool.step] at h
      split_ifs at h with ha
      cases h
      exact .wait ha
    · rintro ⟨⟩
      rename_i ha
      exact if_pos ha
  | endPool => exact endPool_step
  | worker w => exact worker_step
  | waiter c => exact waiter_step
  | spurious t =>
    cases t with
    | worker w =>
      refine wake_worker.trans ⟨?_, ?_⟩
      · rintro ⟨hw, rfl⟩
        exact .wakeWorker hw
      · rintro ⟨⟩
        rename_i hw
        exact ⟨hw, rfl⟩
    | waiter c =>
      refine wake_waiter.trans ⟨?_, ?_⟩
      · rintro ⟨hc, rfl⟩
        exact .wakeWaiter hc
      · rintro ⟨⟩
        rename_i hc
        exact ⟨hc, rfl⟩

end Inversion

end Wrensong.Threads
