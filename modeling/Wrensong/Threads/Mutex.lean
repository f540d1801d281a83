import Wrensong.Threads.Steps

/-!
# Mutual exclusion, and the order of the shutdown

`Sound` is the invariant of the mutex and of `pool_end`: a thread has the mutex exactly if it is at a point where it should,
what a worker has tested under the mutex still holds, and nobody sleeps when `pool_end` has broadcast.
-/

namespace Wrensong.Threads

open Wrensong.Lib

/-- The thread is at a point where it should have the mutex. -/
def Pool.holds (p : Pool) : Thread → Bool
  | .worker w => ((p.workers.get? w).map Worker.holds).getD false
  | .waiter c => ((p.waiters.get? c).map Waiter.holds).getD false

/-- What a worker has tested. -/
def Worker.Tested (cancelled : Bool) (q : Option ℕ) : Worker → Prop
  | .waiting => q = none
  | .checking => cancelled = true ∨ q ≠ none
  | .taking => q ≠ none
  | .exited => cancelled = true
  | _ => True

/-- `pool_end` is behind its broadcast. -/
def Ending.awake : Ending → Bool
  | .notCalled | .cancelled => false
  | _ => true

/-- The thread is asleep or about to sleep. -/
def Worker.sleepy : Worker → Bool
  | .waiting | .asleep => true
  | _ => false

def Waiter.sleepy : Waiter → Bool
  | .waiting | .asleep => true
  | _ => false

structure Sound (p : Pool) : Prop where
  exclusive : ∀ t, p.holds t = true ↔ p.mutex = some t
  tested : ∀ {w pc}, p.workers.get? w = some pc → pc.Tested p.cancelled p.q
  cancelled_iff : p.cancelled = true ↔ p.ending ≠ .notCalled
  awake : p.ending.awake = true → ∀ {w pc}, p.workers.get? w = some pc → pc.sleepy = false
  waiters_awake : p.ending.awake = true → ∀ {c pc}, p.waiters.get? c = some pc → pc.sleepy = false
  joined : ∀ {i}, p.ending = .joining i → ∀ j < i, p.workers.get? j = some .exited
  exited : p.ending.accepts = false → ∀ {w pc}, p.workers.get? w = some pc → pc = .exited
  drained : p.ending = .returned → p.q = none

/-! ### Who has the mutex -/

section Holds

variable {p : Pool} {w c : ℕ} {pc pc' : Worker} {wc wc' : Waiter} {t : Thread} {mutex : Option Thread}

lemma holds_worker (hw : p.workers.get? w = some pc) : p.holds (.worker w) = pc.holds := by simp [Pool.holds, hw]

lemma holds_waiter (hc : p.waiters.get? c = some wc) : p.holds (.waiter c) = wc.holds := by simp [Pool.holds, hc]

lemma holds_setWorker (hw : p.workers.get? w = some pc) :
    (p.setWorker w pc').holds t = if t = .worker w then pc'.holds else p.holds t := by
  cases t with
  | waiter c => simp [Pool.holds, Pool.setWorker]
  | worker v =>
    by_cases e : v = w
    · subst e
      simp [Pool.holds, Pool.setWorker, Heap.get?_put_self hw]
    · simp [Pool.holds, Pool.setWorker, Heap.get?_put_ne (Ne.symm e), e]

lemma holds_setWaiter (hc : p.waiters.get? c = some wc) :
    (p.setWaiter c wc').holds t = if t = .waiter c then wc'.holds else p.holds t := by
  cases t with
  | worker w => simp [Pool.holds, Pool.setWaiter]
  | waiter d =>
    by_cases e : d = c
    · subst e
      simp [Pool.holds, Pool.setWaiter, Heap.get?_put_self hc]
    · simp [Pool.holds, Pool.setWaiter, Heap.get?_put_ne (Ne.symm e), e]

@[simp] lemma Worker.holds_wake : pc.wake.holds = pc.holds := by cases pc <;> rfl

@[simp] lemma Waiter.holds_wake : wc.wake.holds = wc.holds := by cases wc <;> rfl

@[simp] lemma holds_broadcast : p.broadcast.holds t = p.holds t := by
  cases t with
  | worker w =>
    simp only [Pool.holds, Pool.broadcast, Heap.get?_map, Option.map_map]
    congr 2
    funext pc
    exact Worker.holds_wake
  | waiter c =>
    simp only [Pool.holds, Pool.broadcast, Heap.get?_map, Option.map_map]
    congr 2
    funext pc
    exact Waiter.holds_wake

lemma holds_wait : Pool.holds { p with waiters := p.waiters.alloc .locking } t = p.holds t := by
  cases t with
  | worker w => rfl
  | waiter c =>
    simp only [Pool.holds, Heap.get?_alloc]
    split_ifs with e
    · subst e
      simp [Heap.get?_next, Waiter.holds]
    · rfl

/-- A worker that goes on keeps the mutex as it is, locks it, or unlocks it. -/
lemma Worker.Moves.mutex_cases (h : Worker.Moves p w pc pc' mutex) :
    (mutex = p.mutex ∧ pc'.holds = pc.holds) ∨
    (p.mutex = none ∧ mutex = some (.worker w) ∧ pc'.holds = true) ∨
    (pc.holds = true ∧ mutex = none ∧ pc'.holds = false) := by
  cases h with
  | lock hm | relock hm => exact Or.inr (Or.inl ⟨hm, rfl, rfl⟩)
  | sleep | leave => exact Or.inr (Or.inr ⟨rfl, rfl, rfl⟩)
  | _ => exact Or.inl ⟨rfl, rfl⟩

lemma Waiter.Moves.mutex_cases (h : Waiter.Moves p c wc wc' mutex) :
    (mutex = p.mutex ∧ wc'.holds = wc.holds) ∨
    (p.mutex = none ∧ mutex = some (.waiter c) ∧ wc'.holds = true) ∨
    (wc.holds = true ∧ mutex = none ∧ wc'.holds = false) := by
  cases h with
  | lock he hm | relock he hm => exact Or.inr (Or.inl ⟨hm, rfl, rfl⟩)
  | sleep | leave | loseTesting | loseWaiting => exact Or.inr (Or.inr ⟨rfl, rfl, rfl⟩)
  | _ => exact Or.inl ⟨rfl, rfl⟩

/-- One thread keeps the mutex as it is, locks it, or unlocks it, and the others stay where they are. -/
lemma exclusive_of_one {p p' : Pool} {u : Thread} (hx : ∀ t, p.holds t = true ↔ p.mutex = some t)
    (hother : ∀ t, t ≠ u → p'.holds t = p.holds t)
    (h : (p'.mutex = p.mutex ∧ p'.holds u = p.holds u) ∨ (p.mutex = none ∧ p'.mutex = some u ∧ p'.holds u = true) ∨
      (p.holds u = true ∧ p'.mutex = none ∧ p'.holds u = false)) (t : Thread) :
    p'.holds t = true ↔ p'.mutex = some t := by
  rcases h with ⟨hm, hu⟩ | ⟨hm, hm', hu⟩ | ⟨hu, hm', hu'⟩
  · rw [hm, ← hx t]
    rcases eq_or_ne t u with rfl | hne
    · rw [hu]
    · rw [hother t hne]
  · rw [hm']
    rcases eq_or_ne t u with rfl | hne
    · exact iff_of_true hu rfl
    · rw [hother t hne, hx t, hm]
      simp [hne.symm]
  · rw [hm']
    rcases eq_or_ne t u with rfl | hne
    · simp [hu']
    · have hmu := (hx u).1 hu
      rw [hother t hne, hx t, hmu]
      simp [hne.symm]

end Holds

/-! ### The steps keep it -/

section Steps

variable {p p' : Pool} {a : Action} {w c : ℕ}

lemma sound_poolStart (n : ℕ) : Sound (poolStart n) := by
  have hw : ∀ {w pc}, (poolStart n).workers.get? w = some pc → pc = .top := by
    intro w pc hw
    rw [poolStart, Heap.get?, List.getElem?_replicate] at hw
    split_ifs at hw
    cases hw
    rfl
  refine ⟨?_, ?_, ?_, ?_, ?_, ?_, ?_, ?_⟩
  · intro t
    cases t with
    | worker w =>
      refine iff_of_false ?_ (by simp [poolStart])
      rcases h : (poolStart n).workers.get? w with _ | pc
      · simp [Pool.holds, h]
      · rw [holds_worker h, hw h]
        decide
    | waiter c => exact iff_of_false (by simp [Pool.holds, poolStart, Heap.get?]) (by simp [poolStart])
  · intro w pc h
    rw [hw h]
    trivial
  all_goals simp [poolStart, Ending.awake, Ending.accepts]

/-- What a worker without the mutex has tested does not depend on the queue. -/
lemma Worker.Tested.of_not_holds {pc : Worker} {cancelled : Bool} {q q' : Option ℕ} (h : pc.Tested cancelled q)
    (hh : pc.holds = false) : pc.Tested cancelled q' := by
  cases pc <;> first | exact h | cases hh

/-- A worker goes on; the queue changes only if it has the mutex. -/
lemma Sound.of_worker (hi : Sound p) {pc : Worker} {mutex : Option Thread} {q' : Option ℕ}
    (hw : p.workers.get? w = some pc) (pc' : Worker) (hpc : pc ≠ .exited) (hq : q' = p.q ∨ pc.holds = true)
    (hm : (mutex = p.mutex ∧ pc'.holds = pc.holds) ∨ (p.mutex = none ∧ mutex = some (.worker w) ∧ pc'.holds = true) ∨
      (pc.holds = true ∧ mutex = none ∧ pc'.holds = false))
    (ht : pc'.Tested p.cancelled q') (hs : p.ending.awake = true → pc'.sleepy = false) :
    Sound { p.setWorker w pc' with mutex := mutex, q := q' } := by
  have haccepts : p.ending.accepts ≠ false := fun he => hpc (hi.exited he hw)
  have hself : p.holds (.worker w) = pc.holds := holds_worker hw
  have hholds : ∀ t, (p.setWorker w pc').holds t = if t = .worker w then pc'.holds else p.holds t :=
    fun t => holds_setWorker hw
  refine { hi with exclusive := ?_, tested := ?_, awake := ?_, joined := ?_, exited := ?_, drained := ?_ }
  · refine exclusive_of_one hi.exclusive (u := .worker w) (fun t hne => (hholds t).trans (if_neg hne)) ?_
    have hnew : Pool.holds { p.setWorker w pc' with mutex := mutex, q := q' } (.worker w) = pc'.holds :=
      (hholds _).trans (if_pos rfl)
    rw [hnew, hself]
    exact hm
  · intro v pc1 hv
    rcases Heap.get?_put_cases hv with ⟨rfl, rfl⟩ | ⟨hne, hold⟩
    · exact ht
    · rcases hq with rfl | hpch
      · exact hi.tested hold
      · refine (hi.tested hold).of_not_holds ?_
        by_contra hvh
        have h1 := (hi.exclusive (.worker v)).1 ((holds_worker hold).trans (by simpa using hvh))
        have h2 := (hi.exclusive (.worker w)).1 (hself.trans hpch)
        rw [h1] at h2
        cases h2
        exact hne rfl
  · intro he v pc1 hv
    rcases Heap.get?_put_cases hv with ⟨rfl, rfl⟩ | ⟨-, hv⟩
    · exact hs he
    · exact hi.awake he hv
  · intro i he j hj
    have hold := hi.joined he j hj
    have hne : w ≠ j := by
      rintro rfl
      rw [hw] at hold
      cases hold
      exact hpc rfl
    exact (Heap.get?_put_ne hne).trans hold
  · exact fun he => absurd he haccepts
  · intro he
    refine absurd ?_ haccepts
    change p.ending = .returned at he
    rw [he]
    rfl

lemma Sound.of_waiter (hi : Sound p) {pc : Waiter} {mutex : Option Thread} (hc : p.waiters.get? c = some pc) (pc' : Waiter)
    (hm : (mutex = p.mutex ∧ pc'.holds = pc.holds) ∨ (p.mutex = none ∧ mutex = some (.waiter c) ∧ pc'.holds = true) ∨
      (pc.holds = true ∧ mutex = none ∧ pc'.holds = false))
    (hs : p.ending.awake = true → pc'.sleepy = false) : Sound { p.setWaiter c pc' with mutex := mutex } := by
  have hholds : ∀ t, (p.setWaiter c pc').holds t = if t = .waiter c then pc'.holds else p.holds t :=
    fun t => holds_setWaiter hc
  refine { hi with exclusive := ?_, waiters_awake := ?_ }
  · refine exclusive_of_one hi.exclusive (u := .waiter c) (fun t hne => (hholds t).trans (if_neg hne)) ?_
    have hnew : Pool.holds { p.setWaiter c pc' with mutex := mutex } (.waiter c) = pc'.holds :=
      (hholds _).trans (if_pos rfl)
    rw [hnew, holds_waiter hc]
    exact hm
  · intro he d pc1 hd
    rcases Heap.get?_put_cases hd with ⟨rfl, rfl⟩ | ⟨-, hd⟩
    · exact hs he
    · exact hi.waiters_awake he hd

lemma Sound.broadcast (hi : Sound p) : Sound p.broadcast := by
  refine { hi with exclusive := ?_, tested := ?_, awake := ?_, waiters_awake := ?_, joined := ?_, exited := ?_ }
  · intro t
    rw [holds_broadcast]
    exact hi.exclusive t
  · intro w pc hw
    obtain ⟨pc, hold, rfl⟩ := Heap.get?_map_cases hw
    have := hi.tested hold
    cases pc <;> exact this
  · intro he w pc hw
    obtain ⟨pc, hold, rfl⟩ := Heap.get?_map_cases hw
    have := hi.awake he hold
    cases pc <;> first | rfl | exact this
  · intro he c pc hc
    obtain ⟨pc, hold, rfl⟩ := Heap.get?_map_cases hc
    have := hi.waiters_awake he hold
    cases pc <;> first | rfl | exact this
  · intro i he j hj
    change (p.workers.map Worker.wake).get? j = _
    rw [Heap.get?_map, hi.joined he j hj]
    rfl
  · intro he w pc hw
    obtain ⟨pc, hold, rfl⟩ := Heap.get?_map_cases hw
    rw [hi.exited he hold]
    rfl

lemma Sound.worker_holds (hi : Sound p) {pc : Worker} (hm : p.mutex = none) (hw : p.workers.get? w = some pc) :
    pc.holds = false := by
  by_contra h
  have := (hi.exclusive (.worker w)).1 ((holds_worker hw).trans (by simpa using h))
  rw [hm] at this
  cases this

lemma Sound.waiter_holds (hi : Sound p) {pc : Waiter} (hm : p.mutex = none) (hc : p.waiters.get? c = some pc) :
    pc.holds = false := by
  by_contra h
  have := (hi.exclusive (.waiter c)).1 ((holds_waiter hc).trans (by simpa using h))
  rw [hm] at this
  cases this

lemma Sound.push (hi : Sound p) (hm : p.mutex = none) (ha : p.ending.accepts = true) (task : Task) :
    Sound (p.push task) := by
  refine { hi with tested := ?_, drained := ?_ }
  · intro w pc hw
    exact (hi.tested hw).of_not_holds (hi.worker_holds hm hw)
  · intro he
    change p.ending = .returned at he
    rw [he] at ha
    cases ha

lemma Sound.signal (hi : Sound p) {woken : Option Thread} (h : p.Signals woken p') : Sound p' := by
  cases h with
  | worker hw =>
    have := hi.of_worker hw .woken (by simp) (Or.inl rfl) (Or.inl ⟨rfl, rfl⟩) trivial (fun _ => rfl)
    exact { this with }
  | waiter hc =>
    have := hi.of_waiter hc .woken (Or.inl ⟨rfl, rfl⟩) (fun _ => rfl)
    exact { this with }
  | nobody => exact hi

lemma Worker.Moves.tested {pc pc' : Worker} {mutex : Option Thread} (h : Worker.Moves p w pc pc' mutex)
    (ht : pc.Tested p.cancelled p.q) : pc'.Tested p.cancelled p.q := by
  cases h with
  | exit hc | leave hc => exact hc
  | wait hc hq => exact hq
  | check h => exact h
  | pass hc =>
    rcases ht with h | h
    · rw [hc] at h
      cases h
    · exact h
  | _ => trivial

lemma Worker.Moves.ne_exited {pc pc' : Worker} {mutex : Option Thread} (h : Worker.Moves p w pc pc' mutex) :
    pc ≠ .exited := by
  rintro rfl
  cases h

/-- Behind the broadcast of `pool_end` nobody goes to sleep. -/
lemma Sound.sleepy (hi : Sound p) {pc pc' : Worker} {mutex : Option Thread} (hw : p.workers.get? w = some pc)
    (h : Worker.Moves p w pc pc' mutex) (he : p.ending.awake = true) : pc'.sleepy = false := by
  have hc : p.cancelled = true := hi.cancelled_iff.2 fun e => by
    rw [e] at he
    cases he
  have hpc := hi.awake he hw
  cases h with
  | wait hc' => simp [hc] at hc'
  | sleep => cases hpc
  | _ => rfl

lemma Sound.waiter_sleepy (hi : Sound p) {pc pc' : Waiter} {mutex : Option Thread} (hc : p.waiters.get? c = some pc)
    (h : Waiter.Moves p c pc pc' mutex) (he : p.ending.awake = true) : pc'.sleepy = false := by
  have hcancelled : p.cancelled = true := hi.cancelled_iff.2 fun e => by
    rw [e] at he
    cases he
  have hpc := hi.waiters_awake he hc
  cases h with
  | wait he hc' => simp [hcancelled] at hc'
  | sleep => cases hpc
  | _ => rfl

/-- **Every step keeps it.** -/
theorem Sound.step (hi : Sound p) (h : Step p a p') : Sound p' := by
  cases h with
  | enqueue hm ha hs => exact (hi.push hm ha _).signal hs
  | wait ha =>
    refine { hi with exclusive := ?_, waiters_awake := ?_ }
    · intro t
      rw [holds_wait]
      exact hi.exclusive t
    · intro he c pc hc
      rcases Heap.get?_alloc_cases hc with ⟨-, rfl⟩ | hc
      · rfl
      · exact hi.waiters_awake he hc
  | cancel he =>
    refine { hi with
      tested := ?_, cancelled_iff := ?_, awake := ?_, waiters_awake := ?_, joined := ?_, exited := ?_, drained := ?_ }
    · intro w pc hw
      have := hi.tested hw
      cases pc <;> first | exact this | exact Or.inl rfl | rfl
    · simp
    all_goals simp [Ending.awake, Ending.accepts]
  | broadcast he hm =>
    have hb := hi.broadcast
    have hcancelled : p.cancelled = true := hi.cancelled_iff.2 (by simp [he])
    refine { hb with cancelled_iff := ?_, awake := ?_, waiters_awake := ?_, joined := ?_, exited := ?_, drained := ?_ }
    · exact iff_of_true hcancelled (by simp)
    · intro _ w pc hw
      obtain ⟨pc, hold, rfl⟩ := Heap.get?_map_cases hw
      have := hi.worker_holds hm hold
      cases pc <;> first | rfl | cases this
    · intro _ c pc hc
      obtain ⟨pc, hold, rfl⟩ := Heap.get?_map_cases hc
      have := hi.waiter_holds hm hold
      cases pc <;> first | rfl | cases this
    · intro i he' j hj
      cases he'
      cases hj
    all_goals simp [Ending.accepts]
  | @join i he hw =>
    refine { hi with cancelled_iff := ?_, awake := ?_, waiters_awake := ?_, joined := ?_, exited := ?_, drained := ?_ }
    · simpa [he] using hi.cancelled_iff
    · exact fun _ => hi.awake (by rw [he]; rfl)
    · exact fun _ => hi.waiters_awake (by rw [he]; rfl)
    · intro i' he' j hj
      cases he'
      rcases Nat.lt_succ_iff_lt_or_eq.1 hj with hj | rfl
      · exact hi.joined he j hj
      · exact hw
    all_goals simp [Ending.accepts]
  | @joined i he hle =>
    refine { hi with cancelled_iff := ?_, awake := ?_, waiters_awake := ?_, joined := ?_, exited := ?_, drained := ?_ }
    · simpa [he] using hi.cancelled_iff
    · exact fun _ => hi.awake (by rw [he]; rfl)
    · exact fun _ => hi.waiters_awake (by rw [he]; rfl)
    · simp
    · intro _ w pc hw
      have hlt : w < p.workers.next := Heap.lt_next hw
      have := hi.joined he w (by omega)
      rw [hw] at this
      exact Option.some.inj this
    · simp
  | discard he hq hn =>
    refine { hi with tested := ?_, drained := ?_ }
    · intro w pc hw
      obtain rfl : pc = .exited := hi.exited (by rw [he]; rfl) hw
      exact hi.tested hw
    · intro he'
      change p.ending = .returned at he'
      rw [he] at he'
      cases he'
  | «return» he hq =>
    refine { hi with cancelled_iff := ?_, awake := ?_, waiters_awake := ?_, joined := ?_, exited := ?_, drained := ?_ }
    · simpa [he] using hi.cancelled_iff
    · exact fun _ => hi.awake (by rw [he]; rfl)
    · exact fun _ => hi.waiters_awake (by rw [he]; rfl)
    · simp
    · exact fun _ => hi.exited (by rw [he]; rfl)
    · exact fun _ => hq
  | worker hw h =>
    have := hi.of_worker hw _ h.ne_exited (Or.inl rfl) h.mutex_cases (h.tested (hi.tested hw)) (hi.sleepy hw h)
    exact { this with }
  | @take w q node hw hq hn =>
    have hq' : node.next = p.q ∨ Worker.taking.holds = true := Or.inr rfl
    have := hi.of_worker hw (.running q) (by simp) hq' (Or.inr (Or.inr ⟨rfl, rfl, rfl⟩)) trivial (fun _ => rfl)
    exact { this with }
  | @called w q hw =>
    have := hi.of_worker hw (.freeing q) (by simp) (Or.inl rfl) (Or.inl ⟨rfl, rfl⟩) trivial (fun _ => rfl)
    exact { this with }
  | free hw hn =>
    have := hi.of_worker hw .finishing (by simp) (Or.inl rfl) (Or.inl ⟨rfl, rfl⟩) trivial (fun _ => rfl)
    exact { this with }
  | finish hw hm =>
    have := hi.of_worker hw .top (by simp) (Or.inl rfl) (Or.inl ⟨rfl, rfl⟩) trivial (fun _ => rfl)
    have := this.broadcast
    exact { this with }
  | waiter hc h =>
    have := hi.of_waiter hc _ h.mutex_cases (hi.waiter_sleepy hc h)
    exact { this with }
  | wakeWorker hw => exact hi.signal (.worker hw)
  | wakeWaiter hc => exact hi.signal (.waiter hc)

/-- **Mutual exclusion**, and the order of the shutdown, over every run. -/
theorem sound_of_serve {n : ℕ} {acts : List Action} (h : serve n acts = some p) : Sound p :=
  Transition.invariant_of_run (fun hi hs => hi.step (step_iff.1 hs)) (sound_poolStart n) h

end Steps

end Wrensong.Threads
