import Wrensong.Threads.Queue

/-!
# The pool makes progress

Every step of a worker, of a caller of `pool_wait` and of `pool_end` makes the measure `Pool.work` smaller, so that without
new tasks the threads come to rest however they are scheduled. `pool_end` then has returned (`ended_of_serve`). While the pool
is not cancelled, the threads come to rest only when all tasks are done and all callers of `pool_wait` have returned
(`quiet_of_serve`). While nobody is in `pool_wait`, there is an awake worker for each task (`served_of_serve`); a signal
that goes to a caller of `pool_wait` can leave workers asleep, but not all of them.
-/

namespace Wrensong.Threads

open Wrensong.Lib

/-! ### The measure -/

/-- How many steps a worker has before it sleeps or ends; `k` is what a broadcast can cost. -/
def Worker.weight (k : ℕ) : Worker → ℕ
  | .top => 4
  | .locking | .woken => 3
  | .testing => 2
  | .waiting | .checking => 1
  | .asleep | .taking | .exited => 0
  | .running _ => k + 7
  | .freeing _ => k + 6
  | .finishing => k + 5

def Waiter.weight : Waiter → ℕ
  | .locking | .woken => 3
  | .testing => 2
  | .waiting => 1
  | .asleep | .returned | .lost => 0

/-- How many steps `pool_end` has with `n` workers. -/
def Ending.weight (n k : ℕ) : Ending → ℕ
  | .notCalled => k + n + 5
  | .cancelled => k + n + 4
  | .joining i => n - i + 3
  | .draining => 2
  | .returned => 0

/-- What waking all threads can cost. -/
def Pool.wakeCost (p : Pool) : ℕ := p.workers.next * 3 + p.waiters.next * 3

/-- How many tasks are in the queue. -/
def Pool.queued (p : Pool) : ℕ := p.nodes.next - p.taken.length - p.discarded.length

/-- The part of the measure that is not `pool_end`'s. -/
def Pool.load (p : Pool) : ℕ :=
  p.queued * (p.wakeCost + 8) + p.workers.total (Worker.weight p.wakeCost) + p.waiters.total Waiter.weight

/-- A bound for the steps that are left without new tasks. -/
def Pool.work (p : Pool) : ℕ := p.load + p.ending.weight p.workers.next p.wakeCost

/-- A step of a thread of the pool. -/
def Action.ofThread : Action → Bool
  | .worker _ | .waiter _ => true
  | _ => false

/-- A step of a thread of the pool or of `pool_end`. -/
def Action.internal : Action → Bool
  | .worker _ | .waiter _ | .endPool => true
  | _ => false

section Measure

variable {p p' : Pool} {l : List ℕ} {a : Action} {w c : ℕ}

lemma Worker.weight_wake {k : ℕ} (pc : Worker) : pc.wake.weight k ≤ pc.weight k + 3 := by
  cases pc <;> simp [Worker.wake, Worker.weight]

lemma Waiter.weight_wake (pc : Waiter) : pc.wake.weight ≤ pc.weight + 3 := by
  cases pc <;> simp [Waiter.wake, Waiter.weight]

lemma Worker.Moves.weight {pc pc' : Worker} {mutex : Option Thread} (h : Worker.Moves p w pc pc' mutex) (k : ℕ) :
    pc'.weight k < pc.weight k := by
  cases h <;> simp [Worker.weight]

lemma Waiter.Moves.weight {pc pc' : Waiter} {mutex : Option Thread} (h : Waiter.Moves p c pc pc' mutex) :
    pc'.weight < pc.weight := by
  cases h <;> simp [Waiter.weight]

lemma Books.queued_eq (hi : Books p l) : p.queued = l.length := by
  unfold Pool.queued
  have := congrArg List.length hi.order
  simp only [List.length_append, List.length_range] at this
  omega

@[simp] lemma queued_setWorker {pc : Worker} : (p.setWorker w pc).queued = p.queued := rfl

@[simp] lemma queued_setWaiter {pc : Waiter} : (p.setWaiter c pc).queued = p.queued := rfl

@[simp] lemma queued_broadcast : p.broadcast.queued = p.queued := rfl

@[simp] lemma wakeCost_setWorker {pc : Worker} : (p.setWorker w pc).wakeCost = p.wakeCost := by
  simp [Pool.wakeCost, Pool.setWorker]

@[simp] lemma wakeCost_setWaiter {pc : Waiter} : (p.setWaiter c pc).wakeCost = p.wakeCost := by
  simp [Pool.wakeCost, Pool.setWaiter]

@[simp] lemma wakeCost_broadcast : p.broadcast.wakeCost = p.wakeCost := by simp [Pool.wakeCost, Pool.broadcast]

/-- A worker that goes on with less to do. -/
lemma load_setWorker {pc : Worker} (hw : p.workers.get? w = some pc) (pc' : Worker) :
    (p.setWorker w pc').load + pc.weight p.wakeCost = p.load + pc'.weight p.wakeCost := by
  obtain ⟨m, h1, h2⟩ := Heap.total_split (w := Worker.weight p.wakeCost) hw
  unfold Pool.load
  rw [wakeCost_setWorker, queued_setWorker]
  simp only [Pool.setWorker]
  rw [h2, h1]
  omega

lemma load_setWaiter {pc : Waiter} (hc : p.waiters.get? c = some pc) (pc' : Waiter) :
    (p.setWaiter c pc').load + pc.weight = p.load + pc'.weight := by
  obtain ⟨m, h1, h2⟩ := Heap.total_split (w := Waiter.weight) hc
  unfold Pool.load
  rw [wakeCost_setWaiter, queued_setWaiter]
  simp only [Pool.setWaiter]
  rw [h2, h1]
  omega

/-- What a broadcast costs. -/
lemma load_broadcast : p.broadcast.load ≤ p.load + p.wakeCost := by
  have hworkers := Heap.total_map_le (h := p.workers) (Worker.weight_wake (k := p.wakeCost))
  have hwaiters := Heap.total_map_le (h := p.waiters) Waiter.weight_wake
  unfold Pool.load
  rw [wakeCost_broadcast, queued_broadcast]
  simp only [Pool.broadcast]
  unfold Pool.wakeCost at *
  omega

/-- A worker that takes the first task leaves a shorter queue. -/
lemma queued_taking {q : ℕ} (hi : Books p (q :: l)) (w : ℕ) (node : PoolQueue) :
    (p.taking w q node).queued + 1 = p.queued := by
  have hqueued := hi.queued_eq
  rw [List.length_cons] at hqueued
  rw [hqueued]
  unfold Pool.queued at *
  change p.nodes.next - (p.taken ++ [q]).length - p.discarded.length + 1 = _
  rw [List.length_append, List.length_singleton]
  omega

lemma load_taking {q : ℕ} {node : PoolQueue} (hi : Books p (q :: l)) (hw : p.workers.get? w = some .taking) :
    (p.taking w q node).load < p.load := by
  obtain ⟨m, h1, h2⟩ := Heap.total_split (w := Worker.weight p.wakeCost) hw
  have hcost : (p.taking w q node).wakeCost = p.wakeCost := by
    simp [Pool.wakeCost, Pool.taking, Pool.setWorker, Pool.deref]
  have hqueued := queued_taking hi w node
  unfold Pool.load
  rw [hcost, ← hqueued, Nat.succ_mul]
  simp only [Pool.taking, Pool.setWorker, Pool.deref]
  rw [h2, h1]
  simp only [Worker.weight]
  omega

lemma load_discard {q : ℕ} {node : PoolQueue} (hi : Books p (q :: l)) : (p.discard q node).load < p.load := by
  have hcost : (p.discard q node).wakeCost = p.wakeCost := rfl
  have hqueued : (p.discard q node).queued + 1 = p.queued := by
    have hlen := hi.queued_eq
    rw [List.length_cons] at hlen
    rw [hlen]
    unfold Pool.queued at *
    change p.nodes.next - p.taken.length - (p.discarded ++ [q]).length + 1 = _
    rw [List.length_append, List.length_singleton]
    omega
  unfold Pool.load
  rw [hcost, ← hqueued, Nat.succ_mul]
  simp only [Pool.discard, Pool.freeNode, Pool.deref]
  omega

lemma load_finish (hw : p.workers.get? w = some .finishing) : (p.finish w).load < p.load := by
  have htop := load_setWorker hw .top
  have hle : (p.finish w).load ≤ (p.setWorker w .top).load + (p.setWorker w .top).wakeCost := load_broadcast
  rw [wakeCost_setWorker] at hle
  simp only [Worker.weight] at htop
  omega

/-- A step that leaves `pool_end` where it is. -/
lemma work_lt_of_load (he : p'.ending = p.ending) (hw : p'.workers.next = p.workers.next)
    (hc : p'.waiters.next = p.waiters.next) (hlt : p'.load < p.load) : p'.work < p.work := by
  unfold Pool.work Pool.wakeCost
  rw [he, hw, hc]
  omega

/-- A step of `pool_end` alone. -/
lemma work_ending {e : Ending} (hlt : e.weight p.workers.next p.wakeCost < p.ending.weight p.workers.next p.wakeCost) :
    Pool.work { p with ending := e } < p.work := by
  have hload : Pool.load { p with ending := e } = p.load := rfl
  have hcost : Pool.wakeCost { p with ending := e } = p.wakeCost := rfl
  unfold Pool.work
  rw [hload, hcost]
  simp only
  omega

/-- **Every step of a thread of the pool and of `pool_end` makes the measure smaller.** -/
theorem work_lt (hs : Sound p) (hi : Books p l) (h : Step p a p') (ha : a.internal = true) : p'.work < p.work := by
  cases h with
  | enqueue | wait | wakeWorker | wakeWaiter => cases ha
  | cancel he =>
    refine (work_ending (p := { p with cancelled := true }) ?_ : Pool.work _ < Pool.work { p with cancelled := true })
    simp [he, Ending.weight]
  | broadcast he hm =>
    have hle := load_broadcast (p := p)
    have hnext : p.broadcast.workers.next = p.workers.next := Heap.next_map
    have hload : Pool.load { p.broadcast with ending := .joining 0 } = p.broadcast.load := rfl
    have hcost' : Pool.wakeCost { p.broadcast with ending := .joining 0 } = p.broadcast.wakeCost := rfl
    unfold Pool.work
    rw [hload, hcost', wakeCost_broadcast, hnext, he]
    simp only [Ending.weight]
    omega
  | join he hw =>
    have hlt := Heap.lt_next hw
    refine work_ending ?_
    rw [he]
    simp only [Ending.weight]
    omega
  | joined he hle =>
    refine work_ending ?_
    rw [he]
    simp only [Ending.weight]
    omega
  | discard he hq hn =>
    obtain ⟨l', rfl, -⟩ := hi.discard hq hn he
    exact work_lt_of_load rfl rfl rfl (load_discard hi)
  | «return» he hq =>
    refine work_ending ?_
    rw [he]
    simp [Ending.weight]
  | @worker w pc pc' mutex hw h =>
    have hload := load_setWorker hw pc'
    have hlt := h.weight p.wakeCost
    refine work_lt_of_load rfl (Heap.next_put _) rfl (?_ : (p.setWorker w pc').load < p.load)
    omega
  | @take w q node hw hq hn =>
    obtain ⟨l', rfl, -⟩ := hi.taking hw hq hn (hs.accepts hw (by simp))
    exact work_lt_of_load rfl (Heap.next_put _) rfl (load_taking hi hw : (p.taking w q node).load < p.load)
  | @called w q hw =>
    have hload := load_setWorker hw (.freeing q)
    simp only [Worker.weight] at hload
    refine work_lt_of_load rfl (Heap.next_put _) rfl (?_ : (p.setWorker w (.freeing q)).load < p.load)
    omega
  | @free w q node hw hn =>
    have hload := load_setWorker hw .finishing
    simp only [Worker.weight] at hload
    refine work_lt_of_load rfl (Heap.next_put _) rfl (?_ : (p.setWorker w .finishing).load < p.load)
    omega
  | @finish w hw hm =>
    have hnext : (p.finish w).workers.next = p.workers.next := Heap.next_map.trans (Heap.next_put _)
    exact work_lt_of_load rfl hnext Heap.next_map (load_finish hw : (p.finish w).load < p.load)
  | @waiter c pc pc' mutex hc h =>
    have hload := load_setWaiter hc pc'
    have hlt := h.weight
    refine work_lt_of_load rfl rfl (Heap.next_put _) (?_ : (p.setWaiter c pc').load < p.load)
    omega

end Measure

/-! ### Runs of the threads -/

/-- What a run of the threads keeps. -/
lemma run_internal {p p' : Pool} {acts : List Action} (hs : Sound p) (hi : ∃ l, Books p l)
    (hacts : ∀ a ∈ acts, a.internal = true) (h : Transition.run Pool.step p acts = some p') :
    (Sound p' ∧ ∃ l, Books p' l) ∧ acts.length + p'.work ≤ p.work := by
  refine Transition.length_le_of_run (I := fun p => Sound p ∧ ∃ l, Books p l) (P := fun a => a.internal = true) ?_
    ⟨hs, hi⟩ hacts h
  rintro p a p' ⟨hs, l, hi⟩ ha hstep
  have h := step_iff.1 hstep
  exact ⟨⟨hs.step h, hi.step hs h⟩, work_lt hs hi h ha⟩

lemma Step.ending_eq {p p' : Pool} {a : Action} (h : Step p a p') (ha : a.ofThread = true) : p'.ending = p.ending := by
  cases h with
  | worker | take | called | free | finish | waiter => rfl
  | _ => cases ha

/-- What a run of the threads keeps of `pool_end`. -/
lemma run_ending {p p' : Pool} {acts : List Action} (hacts : ∀ a ∈ acts, a.ofThread = true)
    (h : Transition.run Pool.step p acts = some p') : p'.ending = p.ending := by
  induction acts generalizing p with
  | nil =>
    cases h
    rfl
  | cons a acts ih =>
    obtain ⟨p1, h1, h2⟩ := Transition.run_cons_iff.1 h
    exact (ih (fun b hb => hacts b (List.mem_cons_of_mem _ hb)) h2).trans
      ((step_iff.1 h1).ending_eq (hacts a List.mem_cons_self))

/-! ### When the threads rest -/

/-- No thread of the pool can go on. -/
def Pool.AtRest (p : Pool) : Prop := (∀ w, p.step (.worker w) = none) ∧ ∀ c, p.step (.waiter c) = none

section Rest

variable {p p' : Pool} {l : List ℕ} {w c : ℕ}

lemma not_step {a : Action} (h : p.step a = none) : ¬ Step p a p' := fun hs => by
  rw [step_iff.2 hs] at h
  cases h

/-- A node that a worker is about to free is there. -/
lemma Books.freeing_node (hi : Books p l) {q : ℕ} (hw : p.workers.get? w = some (.freeing q)) :
    ∃ node, p.nodes.get? q = some node := by
  obtain ⟨m, hm, -⟩ := Heap.total_split (w := Worker.frees) hw
  have hmem : q ∈ (p.done : Multiset ℕ) + p.discarded := by
    rw [hi.frees_eq, hm]
    simp [Worker.frees]
  have hall : q ∈ (p.taken : Multiset ℕ) + p.discarded := Multiset.mem_of_le (add_le_add_left hi.done_le _) hmem
  have hr : q ∈ List.range p.nodes.next := by
    rw [← hi.order]
    exact List.mem_append_left l (Multiset.mem_coe.1 hall)
  exact ⟨_, List.getElem?_eq_getElem (List.mem_range.1 hr)⟩

/-- The first node of the queue is there. -/
lemma Books.first_node (hi : Books p l) {q : ℕ} (hq : p.q = some q) : ∃ node, p.nodes.get? q = some node := by
  have hchain := hi.chain
  rw [hq] at hchain
  cases l with
  | nil => cases hchain
  | cons b l =>
    obtain ⟨e, n, hn, -⟩ := hchain
    cases e
    exact ⟨n, hn⟩

/-- A worker that is neither asleep nor at its end can go on, if it has the mutex or nobody has. -/
lemma Books.worker_can (hs : Sound p) (hi : Books p l) {pc : Worker} (hw : p.workers.get? w = some pc)
    (hm : p.mutex = none ∨ pc.holds = true) (hpc : pc ≠ .asleep ∧ pc ≠ .exited) : ∃ p', Step p (.worker w) p' := by
  cases pc with
  | top =>
    rcases hc : p.cancelled with _ | _
    · exact ⟨_, .worker hw (.enter hc)⟩
    · exact ⟨_, .worker hw (.exit hc)⟩
  | locking =>
    rcases hm with hm | hm
    · exact ⟨_, .worker hw (.lock hm)⟩
    · cases hm
  | woken =>
    rcases hm with hm | hm
    · exact ⟨_, .worker hw (.relock hm)⟩
    · cases hm
  | testing =>
    by_cases ht : p.cancelled = true ∨ p.q ≠ none
    · exact ⟨_, .worker hw (.check ht)⟩
    · rw [not_or, Bool.not_eq_true, not_not] at ht
      exact ⟨_, .worker hw (.wait ht.1 ht.2)⟩
  | waiting => exact ⟨_, .worker hw .sleep⟩
  | checking =>
    rcases hc : p.cancelled with _ | _
    · exact ⟨_, .worker hw (.pass hc)⟩
    · exact ⟨_, .worker hw (.leave hc)⟩
  | taking =>
    obtain ⟨q, hq⟩ := Option.ne_none_iff_exists'.1 (hs.tested hw)
    obtain ⟨node, hn⟩ := hi.first_node hq
    exact ⟨_, .take hw hq hn⟩
  | running q => exact ⟨_, .called hw⟩
  | freeing q =>
    obtain ⟨node, hn⟩ := hi.freeing_node hw
    exact ⟨_, .free hw hn⟩
  | finishing =>
    rcases hm with hm | hm
    · exact ⟨_, .finish hw hm⟩
    · cases hm
  | asleep => exact absurd rfl hpc.1
  | exited => exact absurd rfl hpc.2

lemma waiter_can {pc : Waiter} (hc : p.waiters.get? c = some pc) (hm : p.mutex = none ∨ pc.holds = true)
    (hpc : pc ≠ .asleep ∧ pc ≠ .returned ∧ pc ≠ .lost) : ∃ p', Step p (.waiter c) p' := by
  by_cases he : p.ending = .returned
  · cases pc with
    | locking => exact ⟨_, .waiter hc (.loseLocking he)⟩
    | woken => exact ⟨_, .waiter hc (.loseWoken he)⟩
    | testing => exact ⟨_, .waiter hc (.loseTesting he)⟩
    | waiting => exact ⟨_, .waiter hc (.loseWaiting he)⟩
    | asleep => exact absurd rfl hpc.1
    | returned => exact absurd rfl hpc.2.1
    | lost => exact absurd rfl hpc.2.2
  cases pc with
  | locking =>
    rcases hm with hm | hm
    · exact ⟨_, .waiter hc (.lock he hm)⟩
    · cases hm
  | woken =>
    rcases hm with hm | hm
    · exact ⟨_, .waiter hc (.relock he hm)⟩
    · cases hm
  | testing =>
    by_cases ht : p.cancelled = true ∨ p.remaining = 0
    · exact ⟨_, .waiter hc (.leave he ht)⟩
    · rw [not_or, Bool.not_eq_true] at ht
      exact ⟨_, .waiter hc (.wait he ht.1 ht.2)⟩
  | waiting => exact ⟨_, .waiter hc (.sleep he)⟩
  | asleep => exact absurd rfl hpc.1
  | returned => exact absurd rfl hpc.2.1
  | lost => exact absurd rfl hpc.2.2

/-- **At rest** nobody has the mutex, and each thread sleeps or is at its end. -/
lemma Pool.AtRest.sleep (h : p.AtRest) (hs : Sound p) (hi : Books p l) :
    p.mutex = none ∧ (∀ {w pc}, p.workers.get? w = some pc → pc = .asleep ∨ pc = .exited) ∧
      ∀ {c pc}, p.waiters.get? c = some pc → pc = .asleep ∨ pc = .returned ∨ pc = .lost := by
  have hworker : ∀ {w pc}, p.workers.get? w = some pc → (p.mutex = none ∨ pc.holds = true) →
      pc = .asleep ∨ pc = .exited := by
    intro w pc hw hm
    by_contra hpc
    obtain ⟨p', hp'⟩ := hi.worker_can hs hw hm (not_or.1 hpc)
    exact not_step (h.1 w) hp'
  have hwaiter : ∀ {c pc}, p.waiters.get? c = some pc → (p.mutex = none ∨ pc.holds = true) →
      pc = .asleep ∨ pc = .returned ∨ pc = .lost := by
    intro c pc hc hm
    by_contra hpc
    obtain ⟨p', hp'⟩ := waiter_can hc hm (by rwa [not_or, not_or] at hpc)
    exact not_step (h.2 c) hp'
  have hmutex : p.mutex = none := by
    by_contra hm
    obtain ⟨t, ht⟩ := Option.ne_none_iff_exists'.1 hm
    have hholds := (hs.exclusive t).2 ht
    cases t with
    | worker w =>
      rcases hw : p.workers.get? w with _ | pc
      · simp [Pool.holds, hw] at hholds
      · rw [holds_worker hw] at hholds
        rcases hworker hw (Or.inr hholds) with rfl | rfl <;> cases hholds
    | waiter c =>
      rcases hc : p.waiters.get? c with _ | pc
      · simp [Pool.holds, hc] at hholds
      · rw [holds_waiter hc] at hholds
        rcases hwaiter hc (Or.inr hholds) with rfl | rfl | rfl <;> cases hholds
  exact ⟨hmutex, fun hw => hworker hw (Or.inl hmutex), fun hc => hwaiter hc (Or.inl hmutex)⟩

/-- Nobody is busy at rest. -/
lemma Pool.AtRest.idle (h : p.AtRest) (hs : Sound p) (hi : Books p l) : p.workers.total Worker.busy = 0 := by
  refine Heap.total_zero fun hw => ?_
  rcases (h.sleep hs hi).2.1 hw with rfl | rfl <;> rfl

end Rest

/-! ### No worker sleeps while a task waits -/

/-- The worker is on its way to the queue. -/
def Worker.awake : Worker → ℕ
  | .top | .locking | .testing | .woken | .checking | .taking => 1
  | _ => 0

/-- Nobody is in `pool_wait`, and while a worker sleeps there is for every task in the queue another worker on its way. -/
structure Served (p : Pool) : Prop where
  alone : ∀ c, p.waiters.get? c = none
  served : p.cancelled = false → ∀ w, p.workers.get? w = some .asleep → p.queued ≤ p.workers.total Worker.awake

section Serve

variable {p p' : Pool} {l : List ℕ} {a : Action} {w : ℕ}

/-- Behind the start of `pool_end` there is nothing to say. -/
lemma Served.of_ended (hw : ∀ c, p.waiters.get? c = none) (hs : Sound p) (he : p.ending ≠ .notCalled) : Served p :=
  ⟨hw, fun hc => by rw [hs.cancelled_iff.2 he] at hc; cases hc⟩

lemma Served.of_worker (hi : Served p) {pc : Worker} (hw : p.workers.get? w = some pc) (pc' : Worker)
    (ha : pc.awake ≤ pc'.awake) (hn : pc' ≠ .asleep) : Served (p.setWorker w pc') := by
  obtain ⟨m, h1, h2⟩ := Heap.total_split (w := Worker.awake) hw
  refine ⟨hi.alone, fun hc v hv => ?_⟩
  rcases Heap.get?_put_cases hv with ⟨-, e⟩ | ⟨-, hv⟩
  · exact absurd e.symm hn
  · have hle := hi.served hc v hv
    change p.queued ≤ (p.workers.put w pc').total Worker.awake
    rw [h2]
    omega

lemma Books.queued_none (hi : Books p l) (hq : p.q = none) : p.queued = 0 := by
  have hchain := hi.chain
  rw [hq] at hchain
  rw [hi.queued_eq]
  cases l with
  | nil => rfl
  | cons a l => cases hchain.1

lemma queued_push (hb : Books p l) (task : Task) : (p.push task).queued = p.queued + 1 := by
  have hnext : (p.push task).nodes.next = p.nodes.next + 1 := by
    unfold Pool.push
    rcases p.last with _ | e <;> simp
  have hlen := congrArg List.length hb.order
  simp only [List.length_append, List.length_range] at hlen
  unfold Pool.queued
  rw [hnext]
  change p.nodes.next + 1 - p.taken.length - p.discarded.length = _
  omega

/-- **A signal reaches a worker**, if there is nobody else to wake. -/
lemma Served.enqueue (hi : Served p) (hb : Books p l) {task : Task} {woken : Option Thread}
    (h : (p.push task).Signals woken p') : Served p' := by
  have hqueued := queued_push hb task
  cases h with
  | @worker v hv =>
    obtain ⟨m, h1, h2⟩ := Heap.total_split (w := Worker.awake) (show p.workers.get? v = some .asleep from hv)
    refine ⟨hi.alone, fun hc u hu => ?_⟩
    change (p.push task).queued ≤ (p.workers.put v .woken).total Worker.awake
    have hle := hi.served hc v hv
    rw [hqueued, h2]
    simp only [Worker.awake] at h1 ⊢
    omega
  | @waiter c hc =>
    have hnone : p.waiters.get? c = some .asleep := hc
    rw [hi.alone c] at hnone
    cases hnone
  | nobody hw hc => exact ⟨hi.alone, fun _ v hv => absurd hv (hw v)⟩

lemma Served.step (hi : Served p) (hs : Sound p) (hb : Books p l) (h : Step p a p') (ha : a ≠ .wait) : Served p' := by
  have hs' := hs.step h
  cases h with
  | enqueue hm hacc hsig => exact hi.enqueue hb hsig
  | wait => exact absurd rfl ha
  | cancel | join | joined | «return» => exact .of_ended hi.alone hs' (by simp)
  | broadcast =>
    refine .of_ended (fun c => ?_) hs' (by simp)
    change (p.waiters.map Waiter.wake).get? c = none
    rw [Heap.get?_map, hi.alone c]
    rfl
  | discard he hq hn => exact .of_ended hi.alone hs' (show p.ending ≠ .notCalled by simp [he])
  | @worker w pc pc' mutex hw h =>
    have hquiet : pc'.awake < pc.awake ∨ pc' = .asleep → p.cancelled = false → p.queued = 0 := by
      intro hless hc
      cases h with
      | exit hc' | leave hc' => simp [hc] at hc'
      | wait hc' hq => exact hb.queued_none hq
      | sleep => exact hb.queued_none (hs.tested hw)
      | _ => simp [Worker.awake] at hless
    by_cases hless : pc'.awake < pc.awake ∨ pc' = .asleep
    · refine ⟨hi.alone, fun hc v _ => ?_⟩
      change p.queued ≤ _
      rw [hquiet hless hc]
      exact Nat.zero_le _
    · rw [not_or, not_lt] at hless
      have := hi.of_worker hw _ hless.1 hless.2
      exact ⟨this.alone, this.served⟩
  | @take w q node hw hq hn =>
    obtain ⟨l', rfl, -⟩ := hb.taking hw hq hn (hs.accepts hw (by simp))
    obtain ⟨m, h1, h2⟩ := Heap.total_split (w := Worker.awake) hw
    refine ⟨hi.alone, fun hc v hv => ?_⟩
    rcases Heap.get?_put_cases hv with ⟨-, e⟩ | ⟨-, hv⟩
    · cases e
    · have hle := hi.served hc v hv
      have hqueued := queued_taking hb w node
      change (p.taking w q node).queued ≤ (p.workers.put w (.running q)).total Worker.awake
      rw [h2]
      simp only [Worker.awake] at h1 ⊢
      omega
  | @called w q hw =>
    have := hi.of_worker hw (.freeing q) le_rfl (by simp)
    exact ⟨this.alone, this.served⟩
  | free hw hn =>
    have := hi.of_worker hw .finishing le_rfl (by simp)
    exact ⟨this.alone, this.served⟩
  | @finish w hw hm =>
    refine ⟨fun c => ?_, fun _ v hv => ?_⟩
    · change (p.waiters.map Waiter.wake).get? c = none
      rw [Heap.get?_map, hi.alone c]
      rfl
    · -- the broadcast wakes all
      obtain ⟨pc, -, e⟩ := Heap.get?_map_cases hv
      cases pc <;> cases e
  | @waiter c _ _ _ hc h =>
    rw [hi.alone c] at hc
    cases hc
  | wakeWorker hw => exact hi.of_worker hw _ (Nat.zero_le _) (by simp)
  | @wakeWaiter c hc =>
    rw [hi.alone c] at hc
    cases hc

variable {n : ℕ} {acts acts' : List Action}

lemma served_run (h : serve n acts = some p) (hwait : ∀ a ∈ acts, a ≠ .wait) : Served p := by
  induction acts using List.reverseRecOn generalizing p with
  | nil =>
    cases h
    exact ⟨fun c => by simp [poolStart, Heap.get?], fun _ _ _ => by simp [Pool.queued, poolStart, Heap.next]⟩
  | append_singleton acts a ih =>
    obtain ⟨p1, h1, h2⟩ := Transition.run_concat_iff.1 h
    obtain ⟨l, hb⟩ := books_of_serve h1
    exact (ih h1 fun b hb => hwait b (List.mem_append_left _ hb)).step (sound_of_serve h1) hb (step_iff.1 h2)
      (hwait a (by simp))

/-- **No task waits for a worker that sleeps**: without a caller of `pool_wait`, and while the pool is not cancelled, there
is for each task in the queue a worker that is awake and on its way to it, or no worker sleeps. -/
theorem served_of_serve (h : serve n acts = some p) (hwait : ∀ a ∈ acts, a ≠ .wait) (hc : p.cancelled = false) {l : List ℕ}
    (hl : Chain p.nodes l p.q) (hw : p.workers.get? w = some .asleep) : l.length ≤ p.workers.total Worker.awake := by
  obtain ⟨l', hb⟩ := books_of_serve h
  rw [hl.unique hb.chain, ← hb.queued_eq]
  exact (served_run h hwait).served hc w hw

/-- Two workers sleep, and one of them is woken for a task. -/
def twoWorkers : List Action :=
  [.worker 0, .worker 0, .worker 0, .worker 0, .worker 1, .worker 1, .worker 1, .worker 1,
    .enqueue ⟨7, true⟩ (some (.worker 1))]

theorem served_of_serve_twoWorkers : ∃ p, serve 2 twoWorkers = some p ∧ [0].length ≤ p.workers.total Worker.awake :=
  ⟨_, rfl, served_of_serve (w := 0) (rfl : serve 2 twoWorkers = _) (by decide) rfl ⟨rfl, _, rfl, rfl⟩ rfl⟩

end Serve

/-! ### Callers that are lost -/

section Lost

variable {p p' : Pool} {a : Action} {n : ℕ} {acts : List Action}

/-- A caller of `pool_wait` that is lost has used the pool when it was freed. -/
def Pool.LostLate (p : Pool) : Prop :=
  ∀ c, p.waiters.get? c = some .lost → p.ending = .returned ∧ Thread.waiter c ∈ p.late

lemma Pool.LostLate.use (hi : p.LostLate) (t : Thread) : (p.use t).LostLate := fun c hc =>
  ⟨(hi c hc).1, List.mem_append_left _ (hi c hc).2⟩

lemma Pool.LostLate.of_woken (hi : p.LostLate) (c : ℕ) : (p.setWaiter c .woken).LostLate := by
  intro d hd
  rcases Heap.get?_put_cases hd with ⟨-, h⟩ | ⟨-, hd⟩
  · cases h
  · exact hi d hd

lemma Pool.LostLate.broadcast (hi : p.LostLate) : p.broadcast.LostLate := by
  intro c hc
  obtain ⟨pc, hold, hpc⟩ := Heap.get?_map_cases hc
  cases pc <;> cases hpc
  exact hi c hold

/-- While the pool is not freed, nobody is lost. -/
lemma Pool.LostLate.none_lost (hi : p.LostLate) (he : p.ending ≠ .returned) (c : ℕ) : p.waiters.get? c ≠ some .lost :=
  fun hc => he (hi c hc).1

lemma Pool.LostLate.step (hi : p.LostLate) (h : Step p a p') : p'.LostLate := by
  cases h with
  | enqueue hm ha hs =>
    cases hs with
    | worker => exact hi
    | waiter => exact hi.of_woken _
    | nobody => exact hi
  | wait ha =>
    intro c hc
    rcases Heap.get?_alloc_cases hc with ⟨-, h⟩ | hc
    · cases h
    · exact hi c hc
  | cancel he | join he | joined he | «return» he =>
    exact fun c hc => absurd hc (hi.none_lost (by rw [he]; simp) c)
  | broadcast he hm => exact fun c hc => absurd hc (hi.broadcast.none_lost (show p.ending ≠ _ by rw [he]; simp) c)
  | discard | wakeWorker => exact hi
  | worker | take | called | free => exact hi.use _
  | finish => exact (hi.use _).broadcast
  | @waiter c pc pc' mutex hc h =>
    intro d hd
    rcases Heap.get?_put_cases hd with ⟨rfl, rfl⟩ | ⟨-, hd⟩
    · have he : p.ending = .returned := by cases h <;> assumption
      exact ⟨he, List.mem_append_right _ (by rw [if_pos he]; exact List.mem_singleton_self _)⟩
    · exact hi.use _ d hd
  | wakeWaiter => exact hi.of_woken _

lemma lostLate_of_serve (h : serve n acts = some p) : p.LostLate :=
  Transition.invariant_of_run (fun hi hs => hi.step (step_iff.1 hs)) (fun c hc => by simp [poolStart, Heap.get?] at hc) h

end Lost

/-! ### All tasks get done -/

/-- While a task is in the queue not all workers sleep, and while a caller of `pool_wait` sleeps there is a task that is
not done. A signal that goes to such a caller is not lost for good: the worker that has the task is going to broadcast. -/
structure Attended (p : Pool) : Prop where
  workers : p.cancelled = false → 0 < p.queued → 0 < p.workers.total Worker.awake + p.workers.total Worker.busy
  waiters : ∀ {c pc}, p.waiters.get? c = some pc → pc.sleepy = true → 0 < p.queued + p.workers.total Worker.busy

section Attend

variable {p p' : Pool} {l : List ℕ} {a : Action} {w n : ℕ} {acts acts' : List Action}

lemma Step.workers_next {p p' : Pool} {a : Action} (h : Step p a p') : p'.workers.next = p.workers.next := by
  cases h with
  | enqueue hm ha hsig =>
    cases hsig with
    | worker => exact Heap.next_put _
    | waiter | nobody => rfl
  | broadcast => exact Heap.next_map
  | worker | take | called | free | wakeWorker => exact Heap.next_put _
  | finish => exact Heap.next_map.trans (Heap.next_put _)
  | _ => rfl

lemma workers_next_of_serve (h : serve n acts = some p) : p.workers.next = n :=
  Transition.invariant_of_run (I := fun p : Pool => p.workers.next = n)
    (fun hp hstep => (step_iff.1 hstep).workers_next.trans hp) (by simp [poolStart, Heap.next]) h

/-- Behind the broadcast of `pool_end` there is nothing to say. -/
lemma Attended.of_awake (hs : Sound p) (he : p.ending.awake = true) : Attended p := by
  refine ⟨fun hc => ?_, fun hw hsleepy => ?_⟩
  · have hcancelled : p.cancelled = true := hs.cancelled_iff.2 fun e => by
      rw [e] at he
      cases he
    rw [hc] at hcancelled
    cases hcancelled
  · rw [hs.waiters_awake he hw] at hsleepy
    cases hsleepy

/-- A worker is awake, busy, asleep or at its end, or it has just seen an empty queue. -/
lemma Worker.awake_or (pc : Worker) : 0 < pc.awake + pc.busy ∨ pc = .asleep ∨ pc = .exited ∨ pc = .waiting := by
  cases pc <;> simp [Worker.awake, Worker.busy]

lemma Attended.enqueue (hi : Attended p) (hs : Sound p) (hb : Books p l) (hm : p.mutex = none) (hn : 0 < p.workers.next)
    {task : Task} {woken : Option Thread} (h : (p.push task).Signals woken p') : Attended p' := by
  have hqueued := queued_push hb task
  cases h with
  | @worker v hv =>
    obtain ⟨m, h1, h2⟩ := Heap.total_split (w := Worker.awake) (show p.workers.get? v = some .asleep from hv)
    refine ⟨fun _ _ => ?_, fun _ _ => ?_⟩
    · change 0 < (p.workers.put v .woken).total Worker.awake + _
      rw [h2]
      simp only [Worker.awake]
      omega
    · change 0 < (p.push task).queued + _
      omega
  | @waiter c hc =>
    refine ⟨fun hcancelled _ => ?_, fun _ _ => ?_⟩
    · change 0 < p.workers.total Worker.awake + p.workers.total Worker.busy
      have hk := hi.waiters (show p.waiters.get? c = some .asleep from hc) rfl
      have hj := hi.workers hcancelled
      omega
    · change 0 < (p.push task).queued + _
      omega
  | nobody hw hc =>
    refine ⟨fun hcancelled _ => ?_, fun _ _ => by omega⟩
    change 0 < p.workers.total Worker.awake + p.workers.total Worker.busy
    obtain ⟨pc, hfirst⟩ : ∃ pc, p.workers.get? 0 = some pc := ⟨_, List.getElem?_eq_getElem hn⟩
    have hawake := Heap.le_total (w := Worker.awake) hfirst
    have hbusy := Heap.le_total (w := Worker.busy) hfirst
    rcases pc.awake_or with h | h | h | h
    · omega
    · rw [h] at hfirst
      exact absurd hfirst (hw 0)
    · rw [h] at hfirst
      have hexited : p.cancelled = true := hs.tested hfirst
      have hopen : p.cancelled = false := hcancelled
      rw [hopen] at hexited
      cases hexited
    · rw [h] at hfirst
      have hholds := hs.worker_holds hm hfirst
      cases hholds

/-- A worker that keeps its task. -/
lemma Attended.of_busy (hi : Attended p) {pc pc' : Worker} (hw : p.workers.get? w = some pc) (ha : pc'.awake = pc.awake)
    (hb : pc'.busy = pc.busy) : Attended (p.setWorker w pc') := by
  have hbusy : (p.workers.put w pc').total Worker.busy = p.workers.total Worker.busy := Heap.total_put_same hw hb
  have hawake : (p.workers.put w pc').total Worker.awake = p.workers.total Worker.awake := Heap.total_put_same hw ha
  refine ⟨fun hc hq => ?_, fun hwc hsleepy => ?_⟩
  · change 0 < (p.workers.put w pc').total Worker.awake + (p.workers.put w pc').total Worker.busy
    rw [hbusy, hawake]
    exact hi.workers hc hq
  · change 0 < p.queued + (p.workers.put w pc').total Worker.busy
    rw [hbusy]
    exact hi.waiters hwc hsleepy

lemma Sound.not_called (hs : Sound p) (hc : p.cancelled = false) : p.ending = .notCalled := by
  by_contra he
  rw [hs.cancelled_iff.2 he] at hc
  cases hc

/-- Where `remaining` is not zero, a task is in the queue or with a worker. -/
lemma Books.left_over (hi : Books p l) (he : p.ending = .notCalled) (hr : p.remaining ≠ 0) :
    0 < p.queued + p.workers.total Worker.busy := by
  by_contra hzero
  have hcount := hi.count_eq
  have hqueued := hi.queued_eq
  rw [hi.discarded_eq (by rw [he]; rfl)] at hcount
  simp only [List.length_nil] at hcount
  have hall : p.nodes.next - p.finished = 0 := by omega
  exact hr (by rw [hi.remaining_eq, hall]; rfl)

lemma Attended.step (hi : Attended p) (hs : Sound p) (hb : Books p l) (hn : 0 < p.workers.next) (h : Step p a p') :
    Attended p' := by
  have hs' := hs.step h
  cases h with
  | enqueue hm hacc hsig => exact hi.enqueue hs hb hm hn hsig
  | wait hacc =>
    refine ⟨hi.workers, fun hc hsleepy => ?_⟩
    rcases Heap.get?_alloc_cases hc with ⟨-, rfl⟩ | hc
    · cases hsleepy
    · exact hi.waiters hc hsleepy
  | cancel he =>
    refine ⟨fun hc => ?_, hi.waiters⟩
    cases hc
  | broadcast | join | joined | «return» => exact .of_awake hs' rfl
  | discard he hq hnode => exact .of_awake hs' (show p.ending.awake = true by rw [he]; rfl)
  | @worker w pc pc' mutex hw h =>
    have hbusy : (p.workers.put w pc').total Worker.busy = p.workers.total Worker.busy := Heap.total_put_same hw h.idle.2.2
    refine ⟨fun hc hq => ?_, fun hwc hsleepy => ?_⟩
    · change 0 < (p.workers.put w pc').total Worker.awake + (p.workers.put w pc').total Worker.busy
      have hold := hi.workers hc hq
      rw [hbusy]
      have hempty : p.q ≠ none := fun hnone => by
        have := hb.queued_none hnone
        have hq' : 0 < p.queued := hq
        omega
      obtain ⟨m, h1, h2⟩ := Heap.total_split (w := Worker.awake) hw
      have hsame : pc'.awake = pc.awake := by
        cases h with
        | exit hc' | leave hc' =>
          have hopen : p.cancelled = false := hc
          rw [hopen] at hc'
          cases hc'
        | wait hc' hq' => exact absurd hq' hempty
        | sleep => exact absurd (hs.tested hw) hempty
        | _ => rfl
      rw [h2]
      omega
    · change 0 < p.queued + (p.workers.put w pc').total Worker.busy
      rw [hbusy]
      exact hi.waiters hwc hsleepy
  | @take w q node hw hq hnode =>
    obtain ⟨l', rfl, -⟩ := hb.taking hw hq hnode (hs.accepts hw (by simp))
    obtain ⟨m, h1, h2⟩ := Heap.total_split (w := Worker.busy) hw
    have hbusy : 0 < (p.workers.put w (.running q)).total Worker.busy := by
      rw [h2]
      simp only [Worker.busy]
      omega
    refine ⟨fun _ _ => ?_, fun _ _ => ?_⟩
    · change 0 < _ + (p.workers.put w (.running q)).total Worker.busy
      omega
    · change 0 < _ + (p.workers.put w (.running q)).total Worker.busy
      omega
  | @called w q hw =>
    have hbusy : Attended (p.setWorker w (.freeing q)) := hi.of_busy hw rfl rfl
    exact ⟨hbusy.workers, hbusy.waiters⟩
  | @free w q node hw hnode =>
    have hbusy : Attended (p.setWorker w .finishing) := hi.of_busy hw rfl rfl
    exact ⟨hbusy.workers, hbusy.waiters⟩
  | @finish w hw hm =>
    refine ⟨fun _ _ => ?_, fun hwc hsleepy => ?_⟩
    · have htop : (p.finish w).workers.get? w = some .top := by
        change ((p.workers.put w .top).map Worker.wake).get? w = _
        rw [Heap.get?_map, Heap.get?_put_self hw]
        rfl
      have hawake := Heap.le_total (w := Worker.awake) htop
      change 0 < (p.finish w).workers.total Worker.awake + _
      simp only [Worker.awake] at hawake ⊢
      omega
    · -- the broadcast wakes the callers that sleep, and nobody is about to sleep while the mutex is free
      obtain ⟨pc, hold, rfl⟩ := Heap.get?_map_cases hwc
      have hholds := hs.waiter_holds hm hold
      cases pc <;> cases hholds <;> cases hsleepy
  | @waiter c pc pc' mutex hwc h =>
    refine ⟨hi.workers, fun hd hsleepy => ?_⟩
    rcases Heap.get?_put_cases hd with ⟨-, rfl⟩ | ⟨-, hd⟩
    · cases h with
      | wait he hc hr => exact hb.left_over (hs.not_called hc) hr
      | sleep => exact hi.waiters hwc rfl
      | _ => cases hsleepy
    · exact hi.waiters hd hsleepy
  | @wakeWorker w hw =>
    obtain ⟨m, h1, h2⟩ := Heap.total_split (w := Worker.awake) hw
    have hbusy : (p.workers.put w .woken).total Worker.busy = p.workers.total Worker.busy := Heap.total_put_same hw rfl
    refine ⟨fun _ _ => ?_, fun hc hsleepy => ?_⟩
    · change 0 < (p.workers.put w .woken).total Worker.awake + _
      rw [h2]
      simp only [Worker.awake]
      omega
    · change 0 < p.queued + (p.workers.put w .woken).total Worker.busy
      rw [hbusy]
      exact hi.waiters hc hsleepy
  | @wakeWaiter c hc =>
    refine ⟨hi.workers, fun hd hsleepy => ?_⟩
    rcases Heap.get?_put_cases hd with ⟨-, rfl⟩ | ⟨-, hd⟩
    · cases hsleepy
    · exact hi.waiters hd hsleepy

lemma attended_run (hn : 0 < n) (h : serve n acts = some p) : Attended p := by
  induction acts using List.reverseRecOn generalizing p with
  | nil =>
    cases h
    refine ⟨fun _ hq => ?_, fun {c pc} hc _ => ?_⟩
    · simp [Pool.queued, poolStart, Heap.next] at hq
    · simp [poolStart, Heap.get?] at hc
  | append_singleton acts a ih =>
    obtain ⟨p1, h1, h2⟩ := Transition.run_concat_iff.1 h
    obtain ⟨l, hb⟩ := books_of_serve h1
    have hnext : 0 < p1.workers.next := by rwa [workers_next_of_serve h1]
    exact (ih h1).step (sound_of_serve h1) hb hnext (step_iff.1 h2)

/-- **All tasks get done**, however the threads are scheduled: without new tasks there is a bound on the steps of the
threads, and they come to rest only when each task has been called and freed once and `pool_wait` has returned to all its
callers. A signal that wakes such a caller instead of a worker does not stop the pool. -/
theorem quiet_of_serve (hn : 0 < n) (h : serve n acts = some p) (hc : p.cancelled = false)
    (hacts : ∀ a ∈ acts', a.ofThread = true) (h' : Transition.run Pool.step p acts' = some p') :
    acts'.length ≤ p.work ∧ (p'.AtRest → p'.done.Perm (List.range p'.nodes.next) ∧
      p'.freedNodes.Perm (List.range p'.nodes.next) ∧ ∀ {c pc}, p'.waiters.get? c = some pc → pc = .returned) := by
  have hall : serve n (acts ++ acts') = some p' := Transition.run_append_iff.2 ⟨p, h, h'⟩
  have hs := sound_of_serve hall
  obtain ⟨l, hi⟩ := books_of_serve hall
  have hinternal : ∀ a ∈ acts', a.internal = true := by
    intro a ha
    have := hacts a ha
    cases a <;> first | rfl | cases this
  have hle := (run_internal (sound_of_serve h) (books_of_serve h) hinternal h').2
  refine ⟨by omega, fun hrest => ?_⟩
  have hattended := attended_run hn hall
  obtain ⟨-, hworkers, hwaiters⟩ := hrest.sleep hs hi
  have hnot : p'.ending = .notCalled := (run_ending hacts h').trans ((sound_of_serve h).not_called hc)
  have hc' : p'.cancelled = false := by
    by_contra hcancelled
    exact hs.cancelled_iff.1 (by simpa using hcancelled) hnot
  have hidle := hrest.idle hs hi
  have hasleep : p'.workers.total Worker.awake = 0 := by
    refine Heap.total_zero fun hw => ?_
    rcases hworkers hw with rfl | rfl <;> rfl
  have hempty : p'.queued = 0 := by
    have := hattended.workers hc'
    omega
  have hl : l = [] := List.length_eq_zero_iff.1 (hi.queued_eq.symm.trans hempty)
  have haccepts : p'.ending.accepts = true := by rw [hnot]; rfl
  obtain ⟨htaken, hfreed⟩ := hi.all_done hidle
  have horder := hi.order
  rw [hl, hi.discarded_eq haccepts, List.append_nil, List.append_nil] at horder
  have hdone : p'.done.Perm (List.range p'.nodes.next) := by
    rw [← horder]
    exact (Multiset.coe_eq_coe.1 htaken).symm
  refine ⟨hdone, ?_, fun {c pc} hpc => ?_⟩
  · rw [hi.discarded_eq haccepts] at hfreed
    exact (Multiset.coe_eq_coe.1 (hfreed.symm.trans (add_zero _))).trans hdone
  · rcases hwaiters hpc with rfl | rfl | rfl
    · have := hattended.waiters hpc rfl
      omega
    · rfl
    · exact absurd hpc ((lostLate_of_serve hall).none_lost (by rw [hnot]; simp) c)

/-- The threads after `oneTask`, until they rest. -/
def oneTaskRest : List Action := oneTaskDone ++ [.waiter 0, .worker 0, .worker 0, .worker 0, .worker 0]

theorem quiet_of_serve_oneTask : ∃ p p', serve 1 oneTask = some p ∧ Transition.run Pool.step p oneTaskRest = some p' ∧
    p'.done.Perm (List.range p'.nodes.next) := by
  refine ⟨_, _, rfl, rfl, ?_⟩
  have hquiet := quiet_of_serve (by decide : 0 < 1) (rfl : serve 1 oneTask = _) rfl
    (by decide : ∀ a ∈ oneTaskRest, a.ofThread = true) rfl
  refine (hquiet.2 ⟨fun w => ?_, fun c => ?_⟩).1
  · rcases w with _ | w <;> rfl
  · rcases c with _ | c <;> rfl

end Attend

/-! ### Ending the pool -/

section End

variable {p p' : Pool} {l : List ℕ} {n : ℕ} {acts acts' : List Action}

/-- **What `pool_end` leaves**: it has returned and all threads are at their end, where a caller of `pool_wait` has returned
if it has not used the pool when it was freed; each task has been called once or is discarded, not both, and each node is
freed once. No worker has used the pool when it was freed. -/
structure Pool.Ended (p : Pool) : Prop where
  returned : p.ending = .returned
  exited : ∀ {w pc}, p.workers.get? w = some pc → pc = .exited
  waiters_returned : ∀ {c pc}, p.waiters.get? c = some pc → pc = .returned ∨ (pc = .lost ∧ Thread.waiter c ∈ p.late)
  once : (p.done ++ p.discarded).Perm (List.range p.nodes.next)
  freed : p.freedNodes.Perm (List.range p.nodes.next)
  late_eq : ∀ w, Thread.worker w ∉ p.late

/-- Where `pool_end` cannot go on either, it has returned. -/
lemma Pool.AtRest.ended (h : p.AtRest) (hend : p.step .endPool = none) (he : p.ending ≠ .notCalled) (hs : Sound p)
    (hi : Books p l) (hlost : p.LostLate) : p.Ended := by
  obtain ⟨hm, hworkers, hwaiters⟩ := h.sleep hs hi
  have hreturned : p.ending = .returned := by
    rcases hp : p.ending with _ | _ | i | _ | _
    · exact absurd hp he
    · exact absurd (.broadcast hp hm) (not_step hend)
    · rcases hw : p.workers.get? i with _ | pc
      · have hle : p.workers.next ≤ i := by
          by_contra hlt
          rw [Heap.get?, List.getElem?_eq_getElem (not_le.1 hlt)] at hw
          cases hw
        exact absurd (.joined hp hle) (not_step hend)
      · have hawake := hs.awake (by rw [hp]; rfl) hw
        rcases hworkers hw with rfl | rfl
        · cases hawake
        · exact absurd (.join hp hw) (not_step hend)
    · rcases hq : p.q with _ | q
      · exact absurd (.return hp hq) (not_step hend)
      · obtain ⟨node, hn⟩ := hi.first_node hq
        exact absurd (.discard hp hq hn) (not_step hend)
    · rfl
  have hl : l = [] := by
    have hchain := hi.chain
    rw [hs.drained hreturned] at hchain
    cases l with
    | nil => rfl
    | cons a l => cases hchain.1
  obtain ⟨htaken, hfreed⟩ := hi.all_done (h.idle hs hi)
  have horder := hi.order
  rw [hl, List.append_nil] at horder
  have honce : (p.done ++ p.discarded).Perm (List.range p.nodes.next) := by
    rw [← horder]
    exact (Multiset.coe_eq_coe.1 htaken).symm.append_right _
  refine ⟨hreturned, ?_, ?_, honce, (Multiset.coe_eq_coe.1 hfreed).symm.trans honce, hi.late_eq⟩
  · intro w pc hw
    exact hs.exited (by rw [hreturned]; rfl) hw
  · intro c pc hc
    have hawake := hs.waiters_awake (by rw [hreturned]; rfl) hc
    rcases hwaiters hc with rfl | rfl | rfl
    · cases hawake
    · exact Or.inl rfl
    · exact Or.inr ⟨rfl, (hlost c hc).2⟩

lemma Step.ending_ne {a : Action} (h : Step p a p') (he : p.ending ≠ .notCalled) : p'.ending ≠ .notCalled := by
  cases h with
  | enqueue hm ha hsig => cases hsig <;> exact he
  | broadcast | join | joined | «return» => simp
  | cancel => simp
  | _ => exact he

/-- **`pool_end` returns**, however the threads are scheduled: without new tasks, new waiters and spurious wake-ups there is a
bound on the steps, and where no thread can go on, it has returned and left the pool as it should. -/
theorem ended_of_serve (h : serve n acts = some p) (he : p.ending ≠ .notCalled)
    (hacts : ∀ a ∈ acts', a.internal = true) (h' : Transition.run Pool.step p acts' = some p') :
    acts'.length ≤ p.work ∧ (p'.AtRest → p'.step .endPool = none → p'.Ended) := by
  obtain ⟨⟨hs, l, hi⟩, hle⟩ := run_internal (sound_of_serve h) (books_of_serve h) hacts h'
  have he' : p'.ending ≠ .notCalled :=
    Transition.invariant_of_run (I := fun p => p.ending ≠ .notCalled)
      (fun hp hstep => (step_iff.1 hstep).ending_ne hp) he h'
  have hlost : p'.LostLate := lostLate_of_serve (Transition.run_append_iff.2 ⟨p, h, h'⟩)
  exact ⟨by omega, fun hrest hend => hrest.ended hend he' hs hi hlost⟩

/-- `pool_end` is called while a task is in the queue. -/
def endEarly : List Action :=
  [.worker 0, .worker 0, .worker 0, .worker 0, .enqueue ⟨7, true⟩ (some (.worker 0)), .endPool]

def endEarlyRest : List Action :=
  [.worker 0, .worker 0, .worker 0, .endPool, .endPool, .endPool, .endPool, .endPool]

theorem ended_of_serve_endEarly : ∃ p p', serve 1 endEarly = some p ∧
    Transition.run Pool.step p endEarlyRest = some p' ∧ p'.Ended := by
  refine ⟨_, _, rfl, rfl, ?_⟩
  have hended := ended_of_serve (rfl : serve 1 endEarly = _) (by decide)
    (by decide : ∀ a ∈ endEarlyRest, a.internal = true) rfl
  refine hended.2 ⟨fun w => ?_, fun c => rfl⟩ rfl
  rcases w with _ | w <;> rfl

end End

end Wrensong.Threads
