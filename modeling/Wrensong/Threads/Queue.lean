import Wrensong.Threads.Mutex
import Mathlib.Data.Multiset.AddSub
import Mathlib.Data.List.Range

/-!
# What becomes of a task

`Books p l` says that `l` is the queue, and which nodes are taken, called, freed or discarded: as multisets, what is taken
is what has been called and what a worker is calling, and what has been called or discarded is what has been freed and what
a worker is about to free. So each task is called at most once, in the order in which the tasks came, and each node is
freed at most once, behind its call.
-/

namespace Wrensong.Threads

open Wrensong.Lib

/-- The node whose task a worker is calling. -/
def Worker.runs : Worker → Multiset ℕ
  | .running q => {q}
  | _ => 0

/-- The node that a worker is about to free. -/
def Worker.frees : Worker → Multiset ℕ
  | .freeing q => {q}
  | _ => 0

/-- The worker has a task that `remaining` still counts. -/
def Worker.busy : Worker → ℕ
  | .running _ | .freeing _ | .finishing => 1
  | _ => 0

/-- The argument that is freed with a node. -/
def Pool.argOf (p : Pool) (q : ℕ) : List ℕ :=
  match (p.nodes.get? q).map Node.value with
  | some task => if task.free then [task.arg] else []
  | none => []

structure Books (p : Pool) (l : List ℕ) : Prop where
  chain : Chain p.nodes l p.q
  last_eq : p.ending.accepts = true → p.last = l.getLast?
  discarded_eq : p.ending.accepts = true → p.discarded = []
  order : p.taken ++ p.discarded ++ l = List.range p.nodes.next
  runs_eq : (p.taken : Multiset ℕ) = p.done + p.workers.total Worker.runs
  frees_eq : (p.done : Multiset ℕ) + p.discarded = p.freedNodes + p.workers.total Worker.frees
  args_eq : p.freedArgs = p.freedNodes.flatMap p.argOf
  count_eq : p.nodes.next = p.finished + p.workers.total Worker.busy + p.discarded.length + l.length
  remaining_eq : p.remaining = .ofNat (p.nodes.next - p.finished)
  dangling_eq : p.dangling = []
  late_eq : ∀ w, Thread.worker w ∉ p.late

section Facts

variable {p : Pool} {l : List ℕ} {w q : ℕ}

lemma Books.nodup (hi : Books p l) : (p.taken ++ p.discarded ++ l).Nodup := hi.order ▸ List.nodup_range

lemma Books.done_le (hi : Books p l) : (p.done : Multiset ℕ) ≤ p.taken := hi.runs_eq ▸ Multiset.le_add_right _ _

lemma Books.freed_le (hi : Books p l) : (p.freedNodes : Multiset ℕ) ≤ p.taken + p.discarded :=
  (hi.frees_eq ▸ Multiset.le_add_right _ _ : (p.freedNodes : Multiset ℕ) ≤ p.done + p.discarded).trans
    (add_le_add_left hi.done_le _)

lemma Books.nodup_taken_discarded (hi : Books p l) : ((p.taken : Multiset ℕ) + p.discarded).Nodup :=
  Multiset.coe_nodup.2 (List.nodup_append.1 hi.nodup).1

/-- **Each node is freed at most once.** -/
lemma Books.freed_nodup (hi : Books p l) : p.freedNodes.Nodup :=
  Multiset.coe_nodup.1 (Multiset.nodup_of_le hi.freed_le hi.nodup_taken_discarded)

/-- A node in the queue is not freed. -/
lemma Books.queue_live (hi : Books p l) (hq : q ∈ l) : q ∉ p.freedNodes := by
  intro hf
  have hm : q ∈ p.taken ++ p.discarded := Multiset.mem_of_le hi.freed_le (Multiset.mem_coe.2 hf)
  exact (List.nodup_append.1 hi.nodup).2.2 q hm q hq rfl

/-- A node that a worker calls is not freed. -/
lemma Books.running_live (hi : Books p l) (hw : p.workers.get? w = some (.running q)) : q ∉ p.freedNodes := by
  intro hf
  obtain ⟨m, hm, -⟩ := Heap.total_split (w := Worker.runs) hw
  have hle : (p.freedNodes : Multiset ℕ) ≤ p.done + p.discarded := hi.frees_eq ▸ Multiset.le_add_right _ _
  have hd : q ∈ (p.done : Multiset ℕ) + p.discarded := Multiset.mem_of_le hle (Multiset.mem_coe.2 hf)
  have hall := hi.nodup_taken_discarded
  rw [hi.runs_eq, hm, show Worker.runs (.running q) = {q} from rfl, add_left_comm, add_assoc, Multiset.singleton_add,
    Multiset.nodup_cons] at hall
  refine hall.1 ?_
  rw [Multiset.mem_add] at hd ⊢
  rcases hd with hd | hd
  · exact Or.inl (Multiset.mem_add.2 (Or.inl hd))
  · exact Or.inr hd

/-- A node that a worker is about to free is not freed. -/
lemma Books.freeing_live (hi : Books p l) (hw : p.workers.get? w = some (.freeing q)) : q ∉ p.freedNodes := by
  intro hf
  obtain ⟨m, hm, -⟩ := Heap.total_split (w := Worker.frees) hw
  have hall : ((p.done : Multiset ℕ) + p.discarded).Nodup :=
    Multiset.nodup_of_le (add_le_add_left hi.done_le _) hi.nodup_taken_discarded
  rw [hi.frees_eq, hm, show Worker.frees (.freeing q) = {q} from rfl, add_left_comm, Multiset.singleton_add,
    Multiset.nodup_cons] at hall
  exact hall.1 (Multiset.mem_add.2 (Or.inl (Multiset.mem_coe.2 hf)))

lemma books_poolStart (n : ℕ) : Books (poolStart n) [] := by
  have hzero : ∀ {M : Type} [AddCommMonoid M] (w : Worker → M), w .top = 0 → (poolStart n).workers.total w = 0 := by
    intro M _ w hw
    simp [poolStart, Heap.total, hw]
  refine ⟨rfl, fun _ => rfl, fun _ => rfl, rfl, ?_, ?_, rfl, ?_, rfl, rfl, by simp [poolStart]⟩
  · rw [hzero _ rfl]
    rfl
  · rw [hzero _ rfl]
    rfl
  · rw [hzero _ rfl]
    rfl

end Facts

/-! ### The steps keep them -/

section Steps

variable {p p' : Pool} {l : List ℕ} {a : Action} {w q : ℕ} {pc pc' : Worker}

/-- A worker goes on with what it has. -/
lemma Books.of_worker (hi : Books p l) (hw : p.workers.get? w = some pc) (hr : pc'.runs = pc.runs)
    (hf : pc'.frees = pc.frees) (hb : pc'.busy = pc.busy) : Books (p.setWorker w pc') l := by
  refine { hi with runs_eq := ?_, frees_eq := ?_, count_eq := ?_ }
  · exact hi.runs_eq.trans (congrArg _ (Heap.total_put_same hw hr).symm)
  · exact hi.frees_eq.trans (congrArg _ (Heap.total_put_same hw hf).symm)
  · have hsame : (p.workers.put w pc').total Worker.busy = p.workers.total Worker.busy := Heap.total_put_same hw hb
    change p.nodes.next = p.finished + (p.workers.put w pc').total Worker.busy + _ + _
    rw [hsame]
    exact hi.count_eq

@[simp] lemma Worker.runs_wake : pc.wake.runs = pc.runs := by cases pc <;> rfl

@[simp] lemma Worker.frees_wake : pc.wake.frees = pc.frees := by cases pc <;> rfl

@[simp] lemma Worker.busy_wake : pc.wake.busy = pc.busy := by cases pc <;> rfl

lemma Books.broadcast (hi : Books p l) : Books p.broadcast l := by
  refine { hi with runs_eq := ?_, frees_eq := ?_, count_eq := ?_ }
  · change (p.taken : Multiset ℕ) = p.done + (p.workers.map Worker.wake).total Worker.runs
    rw [Heap.total_map, Heap.total_congr fun _ => Worker.runs_wake]
    exact hi.runs_eq
  · change (p.done : Multiset ℕ) + p.discarded = p.freedNodes + (p.workers.map Worker.wake).total Worker.frees
    rw [Heap.total_map, Heap.total_congr fun _ => Worker.frees_wake]
    exact hi.frees_eq
  · change p.nodes.next = p.finished + (p.workers.map Worker.wake).total Worker.busy + _ + _
    rw [Heap.total_map, Heap.total_congr fun _ => Worker.busy_wake]
    exact hi.count_eq

/-- A worker that goes on without touching the queue has no task. -/
lemma Worker.Moves.idle {mutex : Option Thread} (h : Worker.Moves p w pc pc' mutex) :
    pc'.runs = pc.runs ∧ pc'.frees = pc.frees ∧ pc'.busy = pc.busy := by
  cases h <;> exact ⟨rfl, rfl, rfl⟩

lemma Books.signal (hi : Books p l) {woken : Option Thread} (h : p.Signals woken p') : Books p' l := by
  cases h with
  | worker hw => exact hi.of_worker hw rfl rfl rfl
  | waiter hc => exact { hi with }
  | nobody => exact hi

/-- The task of an old node is not changed. -/
lemma argOf_push {task : Task} (hq : q < p.nodes.next) : (p.push task).argOf q = p.argOf q := by
  unfold Pool.argOf Pool.push
  have hold : (p.nodes.alloc ⟨task, none⟩).get? q = p.nodes.get? q := by
    rw [Heap.get?_alloc, if_neg hq.ne]
  rcases hl : p.last with _ | e
  · simp [hold]
  · simp [Heap.value_setNext, hold]

/-- **A new task** comes to the end of the queue. -/
lemma Books.push (hi : Books p l) (ha : p.ending.accepts = true) (task : Task) :
    Books (p.push task) (l ++ [p.nodes.next]) := by
  have hfifo : Fifo p.nodes p.q p.last l := ⟨hi.chain, hi.last_eq ha⟩
  have hnew := hfifo.push task
  have hnext : (p.push task).nodes.next = p.nodes.next + 1 := by
    unfold Pool.push
    rcases p.last with _ | e <;> simp
  have hle : p.finished ≤ p.nodes.next := by
    have := hi.count_eq
    omega
  refine { hi with
    chain := hnew.chain, last_eq := fun _ => hnew.last_eq, order := ?_, args_eq := ?_, count_eq := ?_
    remaining_eq := ?_, dangling_eq := ?_ }
  · rw [hnext, List.range_succ, ← hi.order]
    simp [Pool.push]
  · have hsame : p.freedNodes.flatMap (p.push task).argOf = p.freedNodes.flatMap p.argOf := by
      refine List.flatMap_congr fun q hq => argOf_push ?_
      have hm : q ∈ p.taken ++ p.discarded := Multiset.mem_of_le hi.freed_le (Multiset.mem_coe.2 hq)
      have hr : q ∈ List.range p.nodes.next := hi.order ▸ List.mem_append_left l hm
      exact List.mem_range.1 hr
    exact hi.args_eq.trans hsame.symm
  · have := hi.count_eq
    rw [hnext, List.length_append, List.length_singleton]
    simp only [Pool.push]
    omega
  · rw [hnext, show p.nodes.next + 1 - (p.push task).finished = p.nodes.next - p.finished + 1 from
      Nat.sub_add_comm hle, UInt32.ofNat_add, ← hi.remaining_eq]
    rfl
  · have hlast : p.last.toList.filter (· ∈ p.freedNodes) = [] := by
      rw [List.filter_eq_nil_iff]
      intro e he
      have hmem : e ∈ l := List.mem_of_getLast? ((hi.last_eq ha).symm.trans (by simpa using he))
      simpa using hi.queue_live hmem
    simp [Pool.push, hlast, hi.dangling_eq]

/-- **A worker takes the first task.** -/
lemma Books.taking (hi : Books p l) {node : PoolQueue} (hw : p.workers.get? w = some .taking) (hq : p.q = some q)
    (hn : p.nodes.get? q = some node) (ha : p.ending.accepts = true) :
    ∃ l', l = q :: l' ∧ Books (p.taking w q node) l' := by
  have hfifo : Fifo p.nodes (some q) p.last l := ⟨hq ▸ hi.chain, hi.last_eq ha⟩
  obtain ⟨n, l', hn', rfl, hpop⟩ := hfifo.pop
  obtain rfl : node = n := Option.some.inj (hn.symm.trans hn')
  obtain ⟨mr, hr1, hr2⟩ := Heap.total_split (w := Worker.runs) hw
  obtain ⟨mb, hb1, hb2⟩ := Heap.total_split (w := Worker.busy) hw
  refine ⟨l', rfl, { hi with
    chain := hpop.chain, last_eq := fun _ => hpop.last_eq, order := ?_, runs_eq := ?_, frees_eq := ?_, count_eq := ?_
    dangling_eq := ?_ }⟩
  · have hd := hi.discarded_eq ha
    have := hi.order
    rw [hd] at this
    simpa [Pool.taking, Pool.deref, Pool.setWorker, hd] using this
  · have h := hi.runs_eq
    rw [hr1] at h
    change ((p.taken ++ [q] : List ℕ) : Multiset ℕ) = p.done + (p.workers.put w (.running q)).total Worker.runs
    rw [hr2, ← Multiset.coe_add, h]
    simp only [Worker.runs, zero_add, Multiset.coe_singleton]
    abel
  · exact hi.frees_eq.trans (congrArg _ (Heap.total_put_same (y := .running q) hw rfl).symm)
  · have h := hi.count_eq
    rw [hb1] at h
    change p.nodes.next = p.finished + (p.workers.put w (.running q)).total Worker.busy + p.discarded.length + l'.length
    rw [hb2]
    simp only [Worker.busy, List.length_cons] at h ⊢
    omega
  · have hlive := hi.queue_live (q := q) List.mem_cons_self
    simp [Pool.taking, Pool.deref, Pool.setWorker, hi.dangling_eq, hlive]

lemma Books.called (hi : Books p l) (hw : p.workers.get? w = some (.running q)) :
    Books { p.setWorker w (.freeing q) with done := p.done ++ [q] } l := by
  obtain ⟨mr, hr1, hr2⟩ := Heap.total_split (w := Worker.runs) hw
  obtain ⟨mf, hf1, hf2⟩ := Heap.total_split (w := Worker.frees) hw
  refine { hi with runs_eq := ?_, frees_eq := ?_, count_eq := ?_ }
  · have h := hi.runs_eq
    rw [hr1] at h
    change (p.taken : Multiset ℕ) = ((p.done ++ [q] : List ℕ) : Multiset ℕ) +
      (p.workers.put w (.freeing q)).total Worker.runs
    rw [hr2, ← Multiset.coe_add, h]
    simp only [Worker.runs, zero_add, Multiset.coe_singleton]
    abel
  · have h := hi.frees_eq
    rw [hf1] at h
    change ((p.done ++ [q] : List ℕ) : Multiset ℕ) + p.discarded = p.freedNodes +
      (p.workers.put w (.freeing q)).total Worker.frees
    rw [hf2, ← Multiset.coe_add, add_right_comm, h]
    simp only [Worker.frees, zero_add, Multiset.coe_singleton]
    abel
  · have hsame : (p.workers.put w (.freeing q)).total Worker.busy = p.workers.total Worker.busy :=
      Heap.total_put_same hw rfl
    change p.nodes.next = p.finished + (p.workers.put w (.freeing q)).total Worker.busy + _ + _
    rw [hsame]
    exact hi.count_eq

lemma Books.free (hi : Books p l) {node : PoolQueue} (hw : p.workers.get? w = some (.freeing q))
    (hn : p.nodes.get? q = some node) : Books ((p.freeNode q node.value).setWorker w .finishing) l := by
  obtain ⟨mf, hf1, hf2⟩ := Heap.total_split (w := Worker.frees) hw
  refine { hi with runs_eq := ?_, frees_eq := ?_, args_eq := ?_, count_eq := ?_, dangling_eq := ?_ }
  · exact hi.runs_eq.trans (congrArg _ (Heap.total_put_same (y := .finishing) hw rfl).symm)
  · have h := hi.frees_eq
    rw [hf1] at h
    change (p.done : Multiset ℕ) + p.discarded = ((p.freedNodes ++ [q] : List ℕ) : Multiset ℕ) +
      (p.workers.put w .finishing).total Worker.frees
    rw [hf2, ← Multiset.coe_add, h]
    simp only [Worker.frees, zero_add, Multiset.coe_singleton]
    abel
  · change p.freedArgs ++ _ = (p.freedNodes ++ [q]).flatMap p.argOf
    rw [List.flatMap_append, ← hi.args_eq]
    simp [Pool.argOf, hn]
  · have hsame : (p.workers.put w .finishing).total Worker.busy = p.workers.total Worker.busy :=
      Heap.total_put_same hw rfl
    change p.nodes.next = p.finished + (p.workers.put w .finishing).total Worker.busy + _ + _
    rw [hsame]
    exact hi.count_eq
  · simp [Pool.freeNode, Pool.deref, Pool.setWorker, hi.dangling_eq, hi.freeing_live hw]

/-- **The second critical section** of a worker. -/
lemma Books.finish (hi : Books p l) (hw : p.workers.get? w = some .finishing) : Books (p.finish w) l := by
  obtain ⟨mb, hb1, hb2⟩ := Heap.total_split (w := Worker.busy) hw
  have hcount := hi.count_eq
  rw [hb1] at hcount
  simp only [Worker.busy] at hcount
  have hbooks : Books { p.setWorker w .top with remaining := p.remaining - 1, finished := p.finished + 1 } l := by
    refine { hi with runs_eq := ?_, frees_eq := ?_, count_eq := ?_, remaining_eq := ?_ }
    · exact hi.runs_eq.trans (congrArg _ (Heap.total_put_same (y := .top) hw rfl).symm)
    · exact hi.frees_eq.trans (congrArg _ (Heap.total_put_same (y := .top) hw rfl).symm)
    · change p.nodes.next = p.finished + 1 + (p.workers.put w .top).total Worker.busy + p.discarded.length + l.length
      rw [hb2, hcount]
      simp only [Worker.busy]
      omega
    · change p.remaining - 1 = .ofNat (p.nodes.next - (p.finished + 1))
      rw [hi.remaining_eq, show p.nodes.next - p.finished = p.nodes.next - (p.finished + 1) + 1 by omega, UInt32.ofNat_add]
      exact UInt32.add_sub_cancel _ 1
  exact hbooks.broadcast

/-- **`pool_end` discards the first task** that is left. -/
lemma Books.discard (hi : Books p l) {node : PoolQueue} (hq : p.q = some q) (hn : p.nodes.get? q = some node)
    (ha : p.ending = .draining) : ∃ l', l = q :: l' ∧ Books (p.discard q node) l' := by
  have hchain := hi.chain
  rw [hq] at hchain
  cases l with
  | nil => cases hchain
  | cons b l =>
    obtain ⟨e, n, hn', hrest⟩ := hchain
    cases e
    obtain rfl : node = n := Option.some.inj (hn.symm.trans hn')
    refine ⟨l, rfl, { hi with
      chain := hrest, last_eq := ?_, discarded_eq := ?_, order := ?_, frees_eq := ?_, args_eq := ?_, count_eq := ?_
      dangling_eq := ?_ }⟩
    · intro hacc
      change p.ending.accepts = true at hacc
      rw [ha] at hacc
      cases hacc
    · intro hacc
      change p.ending.accepts = true at hacc
      rw [ha] at hacc
      cases hacc
    · have := hi.order
      simpa [Pool.discard, Pool.freeNode, Pool.deref] using this
    · have h := hi.frees_eq
      change (p.done : Multiset ℕ) + ((p.discarded ++ [q] : List ℕ) : Multiset ℕ) =
        ((p.freedNodes ++ [q] : List ℕ) : Multiset ℕ) + p.workers.total Worker.frees
      rw [← Multiset.coe_add, ← add_assoc, h, ← Multiset.coe_add]
      abel
    · change p.freedArgs ++ _ = (p.freedNodes ++ [q]).flatMap p.argOf
      rw [List.flatMap_append, ← hi.args_eq]
      simp [Pool.argOf, hn]
    · have h := hi.count_eq
      simp only [List.length_cons] at h
      change p.nodes.next = p.finished + p.workers.total Worker.busy + (p.discarded ++ [q]).length + l.length
      rw [List.length_append, List.length_singleton]
      omega
    · have hlive := hi.queue_live (q := q) List.mem_cons_self
      simp [Pool.discard, Pool.freeNode, Pool.deref, hi.dangling_eq, hlive]

/-- A worker that has not ended may use the pool. -/
lemma Sound.accepts (hs : Sound p) (hw : p.workers.get? w = some pc) (hpc : pc ≠ .exited) : p.ending.accepts = true := by
  by_contra h
  exact hpc (hs.exited (by simpa using h) hw)

lemma Books.use (hi : Books p l) {t : Thread} (h : p.ending.accepts = true ∨ ∃ c, t = .waiter c) : Books (p.use t) l := by
  refine { hi with late_eq := fun w hw => ?_ }
  rcases List.mem_append.1 hw with hw | hw
  · exact hi.late_eq w hw
  · split_ifs at hw with he
    · rcases h with ha | ⟨c, rfl⟩
      · rw [he] at ha
        cases ha
      · simp at hw
    · cases hw

/-- **Every step keeps the books.** -/
theorem Books.step (hs : Sound p) (hi : Books p l) (h : Step p a p') : ∃ l', Books p' l' := by
  cases h with
  | enqueue hm ha hsig => exact ⟨_, (hi.push ha _).signal hsig⟩
  | wait ha => exact ⟨l, { hi with }⟩
  | cancel he =>
    have ha : p.ending.accepts = true := by rw [he]; rfl
    exact ⟨l, { hi with last_eq := fun _ => hi.last_eq ha, discarded_eq := fun _ => hi.discarded_eq ha }⟩
  | broadcast he hm =>
    have ha : p.ending.accepts = true := by rw [he]; rfl
    have hb := hi.broadcast
    exact ⟨l, { hb with last_eq := fun _ => hi.last_eq ha, discarded_eq := fun _ => hi.discarded_eq ha }⟩
  | join he hw =>
    have ha : p.ending.accepts = true := by rw [he]; rfl
    exact ⟨l, { hi with last_eq := fun _ => hi.last_eq ha, discarded_eq := fun _ => hi.discarded_eq ha }⟩
  | joined he hle =>
    refine ⟨l, { hi with last_eq := ?_, discarded_eq := ?_ }⟩ <;> intro ha <;> cases ha
  | discard he hq hn =>
    obtain ⟨l', -, hl'⟩ := hi.discard hq hn he
    exact ⟨l', hl'⟩
  | «return» he hq =>
    refine ⟨l, { hi with last_eq := ?_, discarded_eq := ?_ }⟩ <;> intro ha <;> cases ha
  | @worker w _ _ _ hw h =>
    have hu := hi.use (t := .worker w) (Or.inl (hs.accepts hw h.ne_exited))
    obtain ⟨hr, hf, hb⟩ := h.idle
    have := hu.of_worker hw hr hf hb
    exact ⟨l, { this with }⟩
  | take hw hq hn =>
    have ha := hs.accepts hw (by simp)
    obtain ⟨l', -, hl'⟩ := (hi.use (Or.inl ha)).taking hw hq hn ha
    exact ⟨l', hl'⟩
  | called hw => exact ⟨l, (hi.use (Or.inl (hs.accepts hw (by simp)))).called hw⟩
  | free hw hn => exact ⟨l, (hi.use (Or.inl (hs.accepts hw (by simp)))).free hw hn⟩
  | finish hw hm => exact ⟨l, (hi.use (Or.inl (hs.accepts hw (by simp)))).finish hw⟩
  | @waiter c _ _ _ hc h =>
    have hu := hi.use (t := .waiter c) (Or.inr ⟨c, rfl⟩)
    exact ⟨l, { hu with }⟩
  | wakeWorker hw => exact ⟨l, hi.signal (.worker hw)⟩
  | wakeWaiter hc => exact ⟨l, hi.signal (.waiter hc)⟩

/-- The books over a run. -/
theorem books_of_serve {n : ℕ} {acts : List Action} (h : serve n acts = some p) : ∃ l, Books p l := by
  have hrun : Sound p ∧ ∃ l, Books p l := by
    refine Transition.invariant_of_run (I := fun p => Sound p ∧ ∃ l, Books p l) ?_ ?_ h
    swap
    · exact ⟨sound_poolStart n, [], books_poolStart n⟩
    rintro p a p' ⟨hs, l, hi⟩ hstep
    exact ⟨hs.step (step_iff.1 hstep), hi.step hs (step_iff.1 hstep)⟩
  exact hrun.2

end Steps

/-! ### Whole runs -/

section Runs

variable {p p' : Pool} {n : ℕ} {acts : List Action}

/-- **Each task once, in order**: the queue is a chain through the nodes that are neither taken nor discarded, in the order
in which they were enqueued; each node is freed at most once, no freed node is followed, and an argument is freed with its
node, if it should be. Two workers never have the mutex at the same time. -/
structure Pool.Ordered (p : Pool) : Prop where
  queue : ∃ l, Chain p.nodes l p.q ∧ p.taken ++ p.discarded ++ l = List.range p.nodes.next
  done_nodup : p.done.Nodup
  done_subset : p.done ⊆ p.taken
  freed_nodup : p.freedNodes.Nodup
  freed_subset : p.freedNodes ⊆ p.done ++ p.discarded
  args_eq : p.freedArgs = p.freedNodes.flatMap p.argOf
  dangling_eq : p.dangling = []
  exclusive : ∀ t t', p.holds t = true → p.holds t' = true → t = t'

theorem ordered_of_serve (h : serve n acts = some p) : p.Ordered := by
  obtain ⟨l, hi⟩ := books_of_serve h
  have hs := sound_of_serve h
  refine ⟨⟨l, hi.chain, hi.order⟩, ?_, ?_, hi.freed_nodup, ?_, hi.args_eq, hi.dangling_eq, ?_⟩
  · refine Multiset.coe_nodup.1 (Multiset.nodup_of_le hi.done_le ?_)
    exact Multiset.coe_nodup.2 (List.nodup_append.1 (List.nodup_append.1 hi.nodup).1).1
  · exact fun q hq => Multiset.mem_of_le hi.done_le (Multiset.mem_coe.2 hq)
  · intro q hq
    have hle : (p.freedNodes : Multiset ℕ) ≤ p.done + p.discarded := hi.frees_eq ▸ Multiset.le_add_right _ _
    exact Multiset.mem_of_le hle (Multiset.mem_coe.2 hq)
  · intro t t' ht ht'
    have h1 := (hs.exclusive t).1 ht
    have h2 := (hs.exclusive t').1 ht'
    rw [h1] at h2
    exact Option.some.inj h2

/-- One worker that sleeps, a caller of `pool_wait` and a task. -/
def oneTask : List Action :=
  [.worker 0, .worker 0, .worker 0, .worker 0, .wait, .enqueue ⟨7, true⟩ (some (.worker 0))]

theorem ordered_of_serve_oneTask : ∃ p, serve 1 oneTask = some p ∧ p.Ordered :=
  ⟨_, rfl, ordered_of_serve (rfl : serve 1 oneTask = _)⟩

/-- Without a busy worker every task that is taken has been called, and its node is freed. -/
lemma Books.all_done {l : List ℕ} (hi : Books p l) (hidle : p.workers.total Worker.busy = 0) :
    (p.taken : Multiset ℕ) = p.done ∧ (p.done : Multiset ℕ) + p.discarded = p.freedNodes := by
  rw [Heap.total_eq_zero] at hidle
  have hruns : p.workers.total Worker.runs = 0 := by
    refine Heap.total_zero fun {w pc} hw => ?_
    have := hidle hw
    cases pc <;> first | rfl | cases this
  have hfrees : p.workers.total Worker.frees = 0 := by
    refine Heap.total_zero fun {w pc} hw => ?_
    have := hidle hw
    cases pc <;> first | rfl | cases this
  exact ⟨by rw [hi.runs_eq, hruns, add_zero], by rw [hi.frees_eq, hfrees, add_zero]⟩

/-- **What `pool_wait` waits for**: when it returns and the pool is not cancelled, every task that was enqueued has been
called and its node is freed, unless `remaining` has come round. -/
theorem waited_of_serve (h : serve n acts = some p) {c : ℕ} (hstep : p.step (.waiter c) = some p')
    (hret : p'.waiters.get? c = some .returned) (hc : p.cancelled = false) (hfew : p.nodes.next < p.finished + 2 ^ 32) :
    ∀ q < p.nodes.next, q ∈ p.done ∧ q ∈ p.freedNodes := by
  obtain ⟨l, hi⟩ := books_of_serve h
  have hs := sound_of_serve h
  have hnot : p.ending = .notCalled := by
    by_contra he
    rw [hs.cancelled_iff.2 he] at hc
    cases hc
  have hd : p.discarded = [] := hi.discarded_eq (by rw [hnot]; rfl)
  have hrem : p.remaining = 0 := by
    cases step_iff.1 hstep with
    | waiter hw hmove =>
      have hnew := (Heap.get?_put_self hw).symm.trans hret
      cases Option.some.inj hnew
      cases hmove with
      | leave he hleave =>
        rcases hleave with hleave | hleave
        · rw [hc] at hleave
          cases hleave
        · exact hleave
  have hcount := hi.count_eq
  have hzero : p.nodes.next - p.finished = 0 := by
    have hval := congrArg UInt32.toNat (hi.remaining_eq.symm.trans hrem)
    rw [UInt32.toNat_ofNat', Nat.mod_eq_of_lt (by omega)] at hval
    exact hval
  have hl : l = [] := List.length_eq_zero_iff.1 (by omega)
  obtain ⟨htaken, hfreed⟩ := hi.all_done (by omega)
  rw [hd, Multiset.coe_nil, add_zero] at hfreed
  intro q hq
  have hmem : q ∈ p.taken := by
    have horder := hi.order
    rw [hd, hl, List.append_nil, List.append_nil] at horder
    rw [horder]
    exact List.mem_range.2 hq
  have hdone : q ∈ (p.done : Multiset ℕ) := htaken ▸ Multiset.mem_coe.2 hmem
  exact ⟨hdone, Multiset.mem_coe.1 (hfreed ▸ hdone)⟩

/-- The caller goes to sleep, the worker does the task and the caller wakes. -/
def oneTaskDone : List Action :=
  [.waiter 0, .waiter 0, .waiter 0, .worker 0, .worker 0, .worker 0, .worker 0, .worker 0, .worker 0, .worker 0, .waiter 0]

theorem waited_of_serve_oneTask : ∃ p p', serve 1 (oneTask ++ oneTaskDone) = some p ∧ p.step (.waiter 0) = some p' ∧
    ∀ q < p.nodes.next, q ∈ p.done ∧ q ∈ p.freedNodes :=
  ⟨_, _, rfl, rfl, waited_of_serve (c := 0) (rfl : serve 1 (oneTask ++ oneTaskDone) = _) rfl rfl rfl (by decide)⟩

end Runs

end Wrensong.Threads
