import Wrensong.Threads.Queue

/-!
# The pool as its users see it

`Jobs` is a queue of tasks and what each worker has: a task is submitted behind the others, an idle worker starts the first
one, and it is finished. Every run of the pool is such a run (`jobs_of_serve`); locks, signals and the nodes of the list
are silent.
-/

namespace Wrensong.Threads

open Wrensong.Lib

structure Jobs where
  queue : List Task := []
  active : Heap (Option Task)
  called : List Task := []
  deriving DecidableEq, Repr

inductive Event
  | submit (task : Task)
  | start (w : ℕ)
  | finish (w : ℕ)
  /-- The first task is thrown away. -/
  | drop
  deriving DecidableEq, Repr

def Jobs.step (j : Jobs) : Event → Option Jobs
  | .submit task => some { j with queue := j.queue ++ [task] }
  | .start w =>
    match j.active.get? w, j.queue with
    | some none, task :: queue => some { j with queue := queue, active := j.active.put w (some task) }
    | _, _ => none
  | .finish w =>
    match j.active.get? w with
    | some (some task) => some { j with active := j.active.put w none, called := j.called ++ [task] }
    | _ => none
  | .drop =>
    match j.queue with
    | _ :: queue => some { j with queue := queue }
    | [] => none

/-- Idle workers. -/
def Jobs.init (threads : ℕ) : Jobs := { active := ⟨List.replicate threads none⟩ }

/-- The task of a node. -/
def taskOf (nodes : Heap PoolQueue) (q : ℕ) : Task := ((nodes.get? q).map Node.value).getD ⟨0, false⟩

/-- The task that a worker calls. -/
def Worker.task (nodes : Heap PoolQueue) : Worker → Option Task
  | .running q => some (taskOf nodes q)
  | _ => none

/-- The pool with the nodes `l` in its queue. -/
def Pool.jobs (p : Pool) (l : List ℕ) : Jobs :=
  { queue := l.map (taskOf p.nodes), active := p.workers.map (Worker.task p.nodes), called := p.done.map (taskOf p.nodes) }

/-- What a step does. -/
def Pool.emit (p : Pool) : Action → List Event
  | .enqueue task _ => [.submit task]
  | .worker w =>
    match p.workers.get? w with
    | some .taking => [.start w]
    | some (.running _) => [.finish w]
    | _ => []
  | .endPool =>
    match p.ending, p.q with
    | .draining, some _ => [.drop]
    | _, _ => []
  | _ => []

section Refine

variable {p p' : Pool} {l l' : List ℕ} {a : Action} {w q n : ℕ} {acts : List Action}

/-- A step that leaves the queue, the tasks of the workers and the calls as they are. -/
lemma jobs_eq (hi : Books p l) (hi' : Books p' l') (hn : p'.nodes = p.nodes) (hq : p'.q = p.q) (hd : p'.done = p.done)
    (hw : p'.workers.map (Worker.task p.nodes) = p.workers.map (Worker.task p.nodes)) : p'.jobs l' = p.jobs l := by
  have hchain := hi'.chain
  rw [hn, hq] at hchain
  obtain rfl := hi.chain.unique hchain
  unfold Pool.jobs
  rw [hn, hd, hw]

lemma Worker.Moves.task {pc pc' : Worker} {mutex : Option Thread} {nodes : Heap PoolQueue}
    (h : Worker.Moves p w pc pc' mutex) : pc'.task nodes = pc.task nodes := by
  cases h <;> rfl

lemma Worker.task_wake {nodes : Heap PoolQueue} (pc : Worker) : pc.wake.task nodes = pc.task nodes := by
  cases pc <;> rfl

lemma map_wake {nodes : Heap PoolQueue} {h : Heap Worker} :
    (h.map Worker.wake).map (Worker.task nodes) = h.map (Worker.task nodes) := by
  simp [Heap.map, Worker.task_wake]

/-- The task of an old node is not changed. -/
lemma taskOf_push {task : Task} (hq : q < p.nodes.next) : taskOf (p.push task).nodes q = taskOf p.nodes q := by
  unfold taskOf Pool.push
  have hold : (p.nodes.alloc ⟨task, none⟩).get? q = p.nodes.get? q := by
    rw [Heap.get?_alloc, if_neg hq.ne]
  rcases hl : p.last with _ | e
  · simp [hold]
  · simp [Heap.value_setNext, hold]

lemma taskOf_push_new {task : Task} : taskOf (p.push task).nodes p.nodes.next = task := by
  unfold taskOf Pool.push
  rcases hl : p.last with _ | e
  · simp
  · simp [Heap.value_setNext]

/-- What a signal wakes does not matter. -/
lemma jobs_signal {woken : Option Thread} (h : p.Signals woken p') : p'.jobs l = p.jobs l := by
  cases h with
  | worker hw =>
    have hsame : (p.workers.put _ .woken).map (Worker.task p.nodes) = _ := Heap.map_put_same hw rfl
    unfold Pool.jobs Pool.setWorker
    rw [hsame]
  | waiter | nobody => rfl

/-- The nodes that the pool knows. -/
lemma Books.lt_next (hi : Books p l) :
    (∀ q ∈ l, q < p.nodes.next) ∧ (∀ q ∈ p.done, q < p.nodes.next) ∧
      ∀ {w q}, p.workers.get? w = some (.running q) → q < p.nodes.next := by
  have hall : ∀ q ∈ p.taken ++ p.discarded ++ l, q < p.nodes.next := by
    intro q hq
    rw [hi.order] at hq
    exact List.mem_range.1 hq
  have htaken : ∀ q ∈ (p.taken : Multiset ℕ), q < p.nodes.next := fun q hq =>
    hall q (List.mem_append_left _ (List.mem_append_left _ (Multiset.mem_coe.1 hq)))
  refine ⟨fun q hq => hall q (List.mem_append_right _ hq), fun q hq => ?_, fun {w q} hw => ?_⟩
  · exact htaken q (Multiset.mem_of_le hi.done_le (Multiset.mem_coe.2 hq))
  · obtain ⟨m, hm, -⟩ := Heap.total_split (w := Worker.runs) hw
    refine htaken q ?_
    rw [hi.runs_eq, hm]
    simp [Worker.runs]

lemma jobs_push (hi : Books p l) (task : Task) :
    (p.push task).jobs (l ++ [p.nodes.next]) = { p.jobs l with queue := l.map (taskOf p.nodes) ++ [task] } := by
  obtain ⟨hl, hdone, hrun⟩ := hi.lt_next
  have hqueue : l.map (taskOf (p.push task).nodes) = l.map (taskOf p.nodes) :=
    List.map_congr_left fun q hq => taskOf_push (hl q hq)
  have hcalled : p.done.map (taskOf (p.push task).nodes) = p.done.map (taskOf p.nodes) :=
    List.map_congr_left fun q hq => taskOf_push (hdone q hq)
  have hactive : p.workers.map (Worker.task (p.push task).nodes) = p.workers.map (Worker.task p.nodes) := by
    refine congrArg Heap.mk (List.map_congr_left fun pc hpc => ?_)
    obtain ⟨w, hw⟩ := List.mem_iff_getElem?.1 hpc
    cases pc with
    | running q => exact congrArg some (taskOf_push (hrun hw))
    | _ => rfl
  unfold Pool.jobs
  rw [List.map_append, List.map_singleton, taskOf_push_new, hqueue]
  congr 1

/-- **Every step of the pool** does what it emits. -/
lemma jobs_step (hs : Sound p) (hi : Books p l) (hi' : Books p' l') (h : Step p a p') :
    Transition.run Jobs.step (p.jobs l) (p.emit a) = some (p'.jobs l') := by
  cases h with
  | @enqueue task _ _ hm ha hsig =>
    have hchain := ((hi.push ha task).signal hsig).chain
    obtain rfl := hchain.unique hi'.chain
    rw [jobs_signal hsig, jobs_push hi]
    rfl
  | wait => exact congrArg some (jobs_eq hi hi' rfl rfl rfl rfl).symm
  | cancel he | broadcast he | join he | joined he =>
    have hemit : p.emit .endPool = [] := by simp [Pool.emit, he]
    rw [hemit]
    exact congrArg some (jobs_eq hi hi' rfl rfl rfl (by first | rfl | exact map_wake)).symm
  | @discard q node he hq hn =>
    obtain ⟨l1, rfl, hb⟩ := hi.discard hq hn he
    obtain rfl := hb.chain.unique hi'.chain
    have hemit : p.emit .endPool = [.drop] := by simp [Pool.emit, he, hq]
    rw [hemit]
    rfl
  | «return» he hq =>
    have hemit : p.emit .endPool = [] := by simp [Pool.emit, he, hq]
    rw [hemit]
    exact congrArg some (jobs_eq hi hi' rfl rfl rfl rfl).symm
  | @worker w pc pc' mutex hw h =>
    have hemit : p.emit (.worker w) = [] := by cases h <;> simp [Pool.emit, hw]
    rw [hemit]
    exact congrArg some (jobs_eq hi hi' rfl rfl rfl (Heap.map_put_same hw h.task)).symm
  | @take w q node hw hq hn =>
    obtain ⟨l1, rfl, hb⟩ := hi.taking hw hq hn (hs.accepts hw (by simp))
    obtain rfl := hb.chain.unique hi'.chain
    have hemit : p.emit (.worker w) = [.start w] := by simp [Pool.emit, hw]
    have hactive : (p.jobs (q :: l1)).active.get? w = some none := Heap.get?_map.trans (by rw [hw]; rfl)
    have hput : ((p.use (.worker w)).taking w q node).jobs l1 =
        { p.jobs (q :: l1) with
          queue := l1.map (taskOf p.nodes), active := (p.jobs (q :: l1)).active.put w (some (taskOf p.nodes q)) } :=
      congrArg (Jobs.mk _ · _) Heap.map_put
    rw [hemit, hput]
    simp only [Transition.run, Jobs.step, hactive]
    rfl
  | @called w q hw =>
    obtain rfl := (hi.called hw).chain.unique hi'.chain
    have hemit : p.emit (.worker w) = [.finish w] := by simp [Pool.emit, hw]
    have hactive : (p.jobs l).active.get? w = some (some (taskOf p.nodes q)) := Heap.get?_map.trans (by rw [hw]; rfl)
    have hput : ({ (p.use (.worker w)).setWorker w (.freeing q) with done := p.done ++ [q] } : Pool).jobs l =
        { p.jobs l with active := (p.jobs l).active.put w none, called := (p.jobs l).called ++ [taskOf p.nodes q] } :=
      congrArg₂ (Jobs.mk _) Heap.map_put List.map_append
    rw [hemit, hput]
    simp only [Transition.run, Jobs.step, hactive]
    rfl
  | @free w q node hw hn =>
    have hemit : p.emit (.worker w) = [] := by simp [Pool.emit, hw]
    rw [hemit]
    exact congrArg some (jobs_eq hi hi' rfl rfl rfl (Heap.map_put_same hw rfl)).symm
  | @finish w hw hm =>
    have hemit : p.emit (.worker w) = [] := by simp [Pool.emit, hw]
    rw [hemit]
    exact congrArg some (jobs_eq hi hi' rfl rfl rfl (map_wake.trans (Heap.map_put_same hw rfl))).symm
  | waiter hc h => exact congrArg some (jobs_eq hi hi' rfl rfl rfl rfl).symm
  | wakeWorker hw => exact congrArg some (jobs_eq hi hi' rfl rfl rfl (Heap.map_put_same hw rfl)).symm
  | wakeWaiter hc => exact congrArg some (jobs_eq hi hi' rfl rfl rfl rfl).symm

/-- The pool, seen as tasks. -/
def Pool.Shows (p : Pool) (j : Jobs) : Prop := Sound p ∧ ∃ l, Books p l ∧ j = p.jobs l

lemma Pool.Shows.step {j : Jobs} (hj : p.Shows j) (hstep : p.step a = some p') :
    ∃ j', Transition.run Jobs.step j (p.emit a) = some j' ∧ p'.Shows j' := by
  obtain ⟨hs, l, hi, rfl⟩ := hj
  have h := step_iff.1 hstep
  obtain ⟨l', hi'⟩ := hi.step hs h
  exact ⟨_, jobs_step hs hi hi' h, hs.step h, l', hi', rfl⟩

/-- **The pool is a queue of tasks**: what a run of it emits is a run of `Jobs`, to the tasks that are in the list, that
the workers call and that have been called. -/
theorem jobs_of_serve (h : serve n acts = some p) : ∃ l, Chain p.nodes l p.q ∧
    Transition.run Jobs.step (.init n) (Transition.trace Pool.step Pool.emit (poolStart n) acts) = some (p.jobs l) := by
  have hinit : (poolStart n).Shows (.init n) :=
    ⟨sound_poolStart n, [], books_poolStart n, by simp [Jobs.init, Pool.jobs, poolStart, Heap.map, Worker.task]⟩
  obtain ⟨_, hrun, -, l, hi, rfl⟩ := Transition.run_sim (R := Pool.Shows) Pool.Shows.step hinit h
  exact ⟨l, hi.chain, hrun⟩

theorem jobs_of_serve_oneTask : ∃ p l, serve 1 oneTask = some p ∧ Chain p.nodes l p.q ∧
    Transition.run Jobs.step (.init 1) [.submit ⟨7, true⟩] = some (p.jobs l) := by
  obtain ⟨l, hl⟩ := jobs_of_serve (rfl : serve 1 oneTask = _)
  exact ⟨_, l, rfl, hl⟩

end Refine

end Wrensong.Threads
