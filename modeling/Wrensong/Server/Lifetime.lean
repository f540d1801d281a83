import Wrensong.Server.Ownership

/-!
# How long a connection lives

A connection is freed by the job whose request asks to close it, and nothing counts who else holds it. The other holders
are the libevent callbacks, which end with the bufferevent, and the other jobs of the connection, which do not. So
connections are in order when a job that closes is the last one of its connection (`LastHolder`).

The invariant (`Alive`) is that no queued or running job is of a freed connection, and that the connections removed, the
connections freed and the bufferevents freed are the same.
-/

namespace Wrensong.Server

open Wrensong.Lib Wrensong.Lib.Bytes Wrensong.Http

/-- The request in a worker's buffer asks to close the connection. -/
def State.AsksClose (s : State) (w : ℕ) : Prop :=
  ∃ r ∈ s.runs w, ∃ b ∈ r.req.buffer, ∃ content ∈ s.buffers.get? b,
    match (parseRequest r.req { buf := content }).1 with
    | .ok (some (_, l)) => l.closing = true
    | _ => False

instance (s : State) (w : ℕ) : Decidable (s.AsksClose w) := by
  have : ∀ r : Running, ∀ content, Decidable (match (parseRequest r.req { buf := content }).1 with
      | .ok (some (_, l)) => l.closing = true
      | _ => False) := fun r content => by split <;> infer_instance
  unfold State.AsksClose
  infer_instance

/-- Some other job of the connection that worker `w` serves is queued or running. -/
def State.Shared (s : State) (w : ℕ) : Prop :=
  ∃ r ∈ s.runs w, (∃ j ∈ s.queue, j.conn = r.job.conn) ∨
    ∃ w' < s.workers.next, w' ≠ w ∧ ∃ r' ∈ s.runs w', r'.job.conn = r.job.conn

instance (s : State) (w : ℕ) : Decidable (s.Shared w) := by unfold State.Shared; infer_instance

/-- **The steps that keep connections in order.** A job that closes its connection is the last one of it. -/
def LastHolder (s : State) : Action → Prop
  | .finish w => s.AsksClose w → ¬ s.Shared w
  | _ => True

instance (s : State) : DecidablePred (LastHolder s)
  | .finish w => inferInstanceAs (Decidable (s.AsksClose w → ¬ s.Shared w))
  | .accept _ => inferInstanceAs (Decidable True)
  | .arrive _ _ => inferInstanceAs (Decidable True)
  | .read _ => inferInstanceAs (Decidable True)
  | .start _ => inferInstanceAs (Decidable True)

/-! ### The invariant -/

/-- No job is left of a connection that is freed. -/
structure Alive (s : State) : Prop where
  bev_eq : ∀ {c conn bev}, s.conns.get? c = some conn → conn.bev = some bev → bev = c
  queue_alive : ∀ {j}, j ∈ s.queue → j.conn ∉ s.freedConns
  running_alive : ∀ {w r}, s.runs w = some r → r.job.conn ∉ s.freedConns
  bevs_eq : s.freedBevs = s.freedConns
  removed_eq : s.removed = s.freedConns
  freed_nodup : s.freedConns.Nodup
  dangling_eq : s.dangling = []

section Steps

variable {s : State}

lemma deref_dangling {c : ℕ} (hc : c ∉ s.freedConns) : (s.deref c).dangling = s.dangling := by
  simp [State.deref, hc]

lemma Alive.enqueue (hi : Alive s) {c : ℕ} (conn : HttpConnection) (input : List UInt8) (hlive : c ∉ s.freedBevs) :
    Alive (s.enqueue c conn input) := by
  have hc : c ∉ s.freedConns := hi.bevs_eq ▸ hlive
  refine { hi with bev_eq := ?_, queue_alive := ?_, dangling_eq := ?_ }
  · intro c' conn' bev hc' hb
    rcases Heap.get?_put_cases hc' with ⟨rfl, rfl⟩ | ⟨-, hc'⟩
    · exact (Option.some.inj hb).symm
    · exact hi.bev_eq hc' hb
  · intro j hj
    rcases List.mem_append.1 hj with hj | hj
    · exact hi.queue_alive hj
    · rw [List.mem_singleton.1 hj]
      exact hc
  · exact (deref_dangling hc).trans hi.dangling_eq

lemma Alive.start (hi : Alive s) {w : ℕ} {j : Job} {queue : List Job} {req : HttpRequest}
    (hw : s.workers.get? w = some none) (hq : s.queue = j :: queue) : Alive (s.begin w j queue req) := by
  have hj : j.conn ∉ s.freedConns := hi.queue_alive (by rw [hq]; exact List.mem_cons_self)
  refine { hi with queue_alive := ?_, running_alive := ?_, dangling_eq := ?_ }
  · intro j' hj'
    exact hi.queue_alive (by rw [hq]; exact List.mem_cons_of_mem _ hj')
  · intro w' r hr
    rw [runs_begin hw] at hr
    split_ifs at hr
    · cases hr
      exact hj
    · exact hi.running_alive hr
  · exact (deref_dangling hj).trans hi.dangling_eq

lemma Alive.done (hi : Alive s) {w b : ℕ} {r : Running} (buf : List UInt8) (f : Option Fields) :
    Alive (s.done w r b buf f) := by
  refine { hi with running_alive := ?_ }
  intro w' r' hr'
  rw [runs_done] at hr'
  split_ifs at hr'
  exact hi.running_alive hr'

lemma Alive.freeBuffer (hi : Alive s) {c : ℕ} (conn : HttpConnection) (hc : c ∉ s.freedConns) :
    Alive (s.freeBuffer c conn) :=
  { hi with dangling_eq := (deref_dangling hc).trans hi.dangling_eq }

/-- The last job of a connection frees it. -/
lemma Alive.freeConn (hi : Alive s) {c : ℕ} (hc : c ∉ s.freedConns) (hq : ∀ j ∈ s.queue, j.conn ≠ c)
    (hr : ∀ w r, s.runs w = some r → r.job.conn ≠ c) : Alive (s.freeConn c c) := by
  have hmem : ∀ {x}, x ∈ (s.freeConn c c).freedConns ↔ x ∈ s.freedConns ∨ x = c := by simp [State.freeConn]
  refine { hi with
    queue_alive := ?_, running_alive := ?_, bevs_eq := ?_, removed_eq := ?_, freed_nodup := ?_ }
  · intro j hj
    rw [hmem, not_or]
    exact ⟨hi.queue_alive hj, hq j hj⟩
  · intro w r h
    rw [hmem, not_or]
    exact ⟨hi.running_alive h, hr w r h⟩
  · simp [State.freeConn, hi.bevs_eq]
  · simp [State.freeConn, hi.removed_eq]
  · simp only [State.freeConn]
    rw [List.nodup_append]
    refine ⟨hi.freed_nodup, by simp, ?_⟩
    intro x hx y hy e
    rw [List.mem_singleton.1 hy] at e
    exact hc (e ▸ hx)

/-- **The invariant is kept by every step that leaves no other holder.** -/
theorem Alive.step {s' : State} {a : Action} (hi : Alive s) (ho : LastHolder s a) (h : Step s a s') : Alive s' := by
  cases h with
  | accept fd =>
    refine { hi with bev_eq := ?_ }
    intro c conn bev hc hb
    rcases Heap.get?_alloc_cases hc with ⟨-, rfl⟩ | hc
    · cases hb
    · exact hi.bev_eq hc hb
  | arrive hin hlive => exact { hi with }
  | readEmpty hin hconn hlive => exact hi
  | read hin hconn hlive hne => exact hi.enqueue _ _ hlive
  | start hw hq hconn => exact hi.start hw hq
  | unknown hp => exact hi.done _ _
  | keep hp hconn hcl => exact (hi.done _ _).freeBuffer _ (hi.running_alive hp.runs)
  | @close w b bev r m cur l conn hp hconn hcl hbev =>
    obtain rfl := hi.bev_eq hconn hbev
    have hlast : ¬ s.Shared w := by
      obtain ⟨hr, hb, content, hc, hparse⟩ := hp
      refine ho ⟨r, hr, b, hb, content, hc, ?_⟩
      rw [hparse]
      exact hcl
    refine ((hi.done _ _).freeBuffer _ (hi.running_alive hp.runs)).freeConn (hi.running_alive hp.runs) ?_ ?_
    · intro j hj e
      exact hlast ⟨r, hp.runs, Or.inl ⟨j, hj, e⟩⟩
    · intro w' r' hr' e
      rw [runs_freeBuffer, runs_done] at hr'
      split_ifs at hr' with hne
      exact hlast ⟨r, hp.runs, Or.inr ⟨w', runs_lt hr', fun e => hne e.symm, r', hr', e⟩⟩

end Steps

/-! ### Whole runs -/

/-- No freed connection has been dereferenced, and none has been removed from the table or freed twice. -/
def State.ConnectionsInOrder (s : State) : Prop := s.dangling = [] ∧ s.removed.Nodup ∧ s.freedConns.Nodup

/-- **Connection lifetime.** In every run in which each job that closes its connection is the last one of it, the
connections are in order in the state reached. -/
theorem connectionsInOrder_of_lastHolder {n : ℕ} {acts : List Action} {s : State}
    (hg : Transition.Guarded step LastHolder (httpStart n) acts) (h : serve n acts = some s) :
    s.ConnectionsInOrder := by
  have hinit : Alive (httpStart n) := by
    refine ⟨?_, ?_, ?_, rfl, rfl, ?_, rfl⟩
    · intro c conn bev hc
      simp [httpStart, Heap.get?] at hc
    · simp [httpStart]
    · intro w r hr
      rw [runs_httpStart] at hr
      cases hr
    · simp [httpStart]
  have hinv : Alive s := hg.invariant (fun hi ho hs => hi.step ho (step_iff.1 hs)) hinit h
  exact ⟨hinv.dangling_eq, hinv.removed_eq ▸ hinv.freed_nodup, hinv.freed_nodup⟩

/-- Two connections with two jobs each. The second job of each one closes it, while a job of the other one is there. -/
def twoCloses : List Action :=
  [.accept 3, .accept 4, .arrive 0 (bytes "GET / HTTP/1.1\r\n"), .read 0, .arrive 1 (bytes "GET / HTTP/1.1\r\n"), .start 0,
    .read 1, .finish 0, .arrive 0 (bytes "Connection: close\r\n\r\n"), .read 0, .start 1, .start 0, .finish 0, .finish 1,
    .arrive 1 (bytes "Connection: close\r\n\r\n"), .read 1, .start 0, .finish 0]

theorem connectionsInOrder_of_close :
    ∃ s, serve 2 twoCloses = some s ∧ s.removed = [0, 1] ∧ s.ConnectionsInOrder := by
  have hs : serve 2 twoCloses = some _ := rfl
  exact ⟨_, hs, by decide +kernel, connectionsInOrder_of_lastHolder (by decide +kernel) hs⟩

/-- Two callbacks queue two jobs; the first one frees the connection and the second one is started from it. -/
theorem not_connectionsInOrder :
    ¬ ∀ (n : ℕ) (acts : List Action) (s : State), serve n acts = some s → s.ConnectionsInOrder := by
  intro h
  have hs : serve 1 [.accept 3, .arrive 0 (bytes "GET / HTTP/1.1\r\nConnection: close\r\n\r\n"), .read 0,
    .arrive 0 (bytes "x"), .read 0, .start 0, .finish 0, .start 0] = some _ := rfl
  exact absurd (h _ _ _ hs).1 (by decide +kernel)

end Wrensong.Server
