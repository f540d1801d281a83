import Wrensong.Server.Requests

/-!
# Who frees a request buffer

A job holds its connection and no buffer: a worker copies `conn->request` when it starts and frees
`conn->request._buffer` when it ends, and either may have been overwritten by a read callback since the job was queued.
An unknown method ends a job without freeing anything. So the buffers are in order when the callbacks are `Exclusive`: a
callback finds bytes only on a connection without a job, and a job that ends has a known method.

The invariant (`Owned`) is that the buffer of each queued or running job is the current buffer of its connection, that
no connection has two jobs, and that the freed buffers are those of the finished jobs.
-/

namespace Wrensong.Server

open Wrensong.Lib Wrensong.Lib.Bytes Wrensong.Http

/-- Some job of the connection is queued or running. -/
def State.Busy (s : State) (c : ℕ) : Prop := (∃ j ∈ s.queue, j.conn = c) ∨ ∃ w r, s.runs w = some r ∧ r.job.conn = c

lemma busy_iff {s : State} {c : ℕ} : s.Busy c ↔
    (∃ j ∈ s.queue, j.conn = c) ∨ ∃ w < s.workers.next, ∃ r ∈ s.runs w, r.job.conn = c := by
  refine or_congr Iff.rfl ⟨?_, ?_⟩
  · rintro ⟨w, r, hr, hc⟩
    exact ⟨w, runs_lt hr, r, hr, hc⟩
  · rintro ⟨w, -, r, hr, hc⟩
    exact ⟨w, r, hr, hc⟩

instance (s : State) (c : ℕ) : Decidable (s.Busy c) := decidable_of_iff' _ busy_iff

/-- **The steps that keep buffers in order.** A read callback on a connection with a job finds no bytes, and the buffer
of a job that ends names a known method. -/
def Exclusive (s : State) : Action → Prop
  | .read c => s.Busy c → s.inputs.get? c = some []
  | .finish w => ∀ r ∈ s.runs w, ∀ b ∈ r.req.buffer, ∀ content ∈ s.buffers.get? b, Known (token (some SP) content)
  | _ => True

instance (s : State) : DecidablePred (Exclusive s) := fun a => by
  cases a <;> unfold Exclusive <;> infer_instance

/-! ### The invariant -/

/-- Each job owns the current buffer of its connection. -/
structure Owned (s : State) : Prop where
  conn_lt : ∀ {c conn b}, s.conns.get? c = some conn → conn.request.buffer = some b → b < s.buffers.next
  conn_inj : ∀ {c c' conn conn' b}, s.conns.get? c = some conn → s.conns.get? c' = some conn' →
    conn.request.buffer = some b → conn'.request.buffer = some b → c = c'
  queue_buffer : ∀ {j}, j ∈ s.queue → ∃ conn, s.conns.get? j.conn = some conn ∧ conn.request.buffer = some j.buffer
  queue_nodup : (s.queue.map Job.conn).Nodup
  running_copy : ∀ {w r}, s.runs w = some r → r.req.buffer = some r.job.buffer
  running_buffer : ∀ {w r}, s.runs w = some r →
    ∃ conn, s.conns.get? r.job.conn = some conn ∧ conn.request.buffer = some r.job.buffer
  running_inj : ∀ {w w' r r'}, s.runs w = some r → s.runs w' = some r' → r.job.conn = r'.job.conn → w = w'
  queue_running : ∀ {w r j}, s.runs w = some r → j ∈ s.queue → j.conn ≠ r.job.conn
  freed_lt : ∀ {b}, b ∈ s.freedBuffers → b < s.buffers.next
  freed_nodup : s.freedBuffers.Nodup
  queue_live : ∀ {j}, j ∈ s.queue → j.buffer ∉ s.freedBuffers
  running_live : ∀ {w r}, s.runs w = some r → r.job.buffer ∉ s.freedBuffers
  finished_freed : ∀ {j}, j ∈ s.finished → j.buffer ∈ s.freedBuffers

section Steps

variable {s : State}

lemma owned_httpStart (n : ℕ) : Owned (httpStart n) := by
  have hrun : ∀ {w r}, (httpStart n).runs w = some r → False := fun h => by
    rw [runs_httpStart] at h
    cases h
  have hconn : ∀ {c conn}, (httpStart n).conns.get? c = some conn → False := fun h => by
    simp [httpStart, Heap.get?] at h
  refine ⟨fun h => (hconn h).elim, fun h => (hconn h).elim, ?_, ?_, fun h => (hrun h).elim, fun h => (hrun h).elim,
    fun h => (hrun h).elim, fun h => (hrun h).elim, ?_, ?_, ?_, fun h => (hrun h).elim, ?_⟩ <;> simp [httpStart]

lemma Owned.accept (hi : Owned s) (fd : ℕ) : Owned (httpHandleConnection s fd) := by
  have hcell : ∀ {c conn b}, (httpHandleConnection s fd).conns.get? c = some conn → conn.request.buffer = some b →
      s.conns.get? c = some conn := by
    intro c conn b hc hb
    rcases Heap.get?_alloc_cases hc with ⟨-, rfl⟩ | hc
    · cases hb
    · exact hc
  have hold : ∀ {c conn}, s.conns.get? c = some conn → (httpHandleConnection s fd).conns.get? c = some conn :=
    fun h => Heap.get?_alloc_of_get? h
  refine { hi with conn_lt := ?_, conn_inj := ?_, queue_buffer := ?_, running_buffer := ?_ }
  · exact fun hc hb => hi.conn_lt (hcell hc hb) hb
  · exact fun hc hc' hb hb' => hi.conn_inj (hcell hc hb) (hcell hc' hb') hb hb'
  · intro j hj
    obtain ⟨conn, hc, hb⟩ := hi.queue_buffer hj
    exact ⟨conn, hold hc, hb⟩
  · intro w r hr
    obtain ⟨conn, hc, hb⟩ := hi.running_buffer hr
    exact ⟨conn, hold hc, hb⟩

/-- A read callback on a connection without a job. -/
lemma Owned.read (hi : Owned s) {c : ℕ} {conn : HttpConnection} (input : List UInt8)
    (hconn : s.conns.get? c = some conn) (hfree : ¬ s.Busy c) : Owned (s.enqueue c conn input) := by
  have hqueue : ∀ {j}, j ∈ s.queue → j.conn ≠ c := fun hj e => hfree (Or.inl ⟨_, hj, e⟩)
  have hrun : ∀ {w r}, s.runs w = some r → r.job.conn ≠ c := fun hr e => hfree (Or.inr ⟨_, _, hr, e⟩)
  have hself : (s.enqueue c conn input).conns.get? c = some (conn.withBuffer c s.buffers.next input.length) :=
    Heap.get?_put_self hconn
  have hother : ∀ {c'}, c' ≠ c → (s.enqueue c conn input).conns.get? c' = s.conns.get? c' :=
    fun hne => Heap.get?_put_ne (Ne.symm hne)
  have hnext : (s.enqueue c conn input).buffers.next = s.buffers.next + 1 := Heap.next_alloc _
  have hcell : ∀ {c' conn' b}, (s.enqueue c conn input).conns.get? c' = some conn' → conn'.request.buffer = some b →
      (c' = c ∧ b = s.buffers.next) ∨ (c' ≠ c ∧ s.conns.get? c' = some conn') := by
    intro c' conn' b hc hb
    rcases Heap.get?_put_cases hc with ⟨rfl, rfl⟩ | ⟨hne, hc⟩
    · exact Or.inl ⟨rfl, (Option.some.inj hb).symm⟩
    · exact Or.inr ⟨hne, hc⟩
  have hfreed : s.buffers.next ∉ s.freedBuffers := fun hb => by
    have := hi.freed_lt hb
    omega
  have hmem : ∀ {j}, j ∈ (s.enqueue c conn input).queue ↔ j ∈ s.queue ∨ j = ⟨c, s.buffers.next⟩ := by
    simp [State.enqueue]
  refine { hi with
    conn_lt := ?_, conn_inj := ?_, queue_buffer := ?_, queue_nodup := ?_, running_buffer := ?_, queue_running := ?_
    freed_lt := ?_, queue_live := ?_ }
  · intro c' conn' b hc hb
    rw [hnext]
    rcases hcell hc hb with ⟨-, rfl⟩ | ⟨-, hc⟩
    · omega
    · have := hi.conn_lt hc hb
      omega
  · intro c1 c2 conn1 conn2 b h1 h2 hb1 hb2
    rcases hcell h1 hb1 with ⟨e1, hb⟩ | ⟨-, h1'⟩ <;> rcases hcell h2 hb2 with ⟨e2, hb'⟩ | ⟨-, h2'⟩
    · rw [e1, e2]
    · have := hi.conn_lt h2' hb2
      omega
    · have := hi.conn_lt h1' hb1
      omega
    · exact hi.conn_inj h1' h2' hb1 hb2
  · intro j hj
    rcases hmem.1 hj with hj | rfl
    · rw [hother (hqueue hj)]
      exact hi.queue_buffer hj
    · exact ⟨_, hself, rfl⟩
  · simp only [State.enqueue, List.map_append, List.map_cons, List.map_nil]
    rw [List.nodup_append]
    refine ⟨hi.queue_nodup, by simp, ?_⟩
    intro x hx y hy
    obtain ⟨j, hj, rfl⟩ := List.mem_map.1 hx
    rw [List.mem_singleton.1 hy]
    exact hqueue hj
  · intro w r hr
    rw [hother (hrun hr)]
    exact hi.running_buffer hr
  · intro w r j hr hj
    rcases hmem.1 hj with hj | rfl
    · exact hi.queue_running hr hj
    · exact (hrun hr).symm
  · intro b hb
    rw [hnext]
    have := hi.freed_lt hb
    omega
  · intro j hj
    rcases hmem.1 hj with hj | rfl
    · exact hi.queue_live hj
    · exact hfreed

/-- A worker takes the first job. -/
lemma Owned.start (hi : Owned s) {w : ℕ} {j : Job} {queue : List Job} {conn : HttpConnection}
    (hw : s.workers.get? w = some none) (hq : s.queue = j :: queue) (hconn : s.conns.get? j.conn = some conn) :
    Owned (s.begin w j queue conn.request) := by
  have hj : j ∈ s.queue := by rw [hq]; exact List.mem_cons_self
  have hsub : ∀ {j'}, j' ∈ queue → j' ∈ s.queue := fun h => by rw [hq]; exact List.mem_cons_of_mem _ h
  have hnodup : j.conn ∉ queue.map Job.conn ∧ (queue.map Job.conn).Nodup := by
    have h := hi.queue_nodup
    rwa [hq, List.map_cons, List.nodup_cons] at h
  have hbuf : conn.request.buffer = some j.buffer := by
    obtain ⟨conn', hc, hb⟩ := hi.queue_buffer hj
    rw [hconn] at hc
    cases hc
    exact hb
  have hruns : ∀ {w' r}, (s.begin w j queue conn.request).runs w' = some r →
      (w = w' ∧ r = ⟨j, conn.request⟩) ∨ (w ≠ w' ∧ s.runs w' = some r) := by
    intro w' r hr
    rw [runs_begin hw] at hr
    split_ifs at hr with e
    · exact Or.inl ⟨e, (Option.some.inj hr).symm⟩
    · exact Or.inr ⟨e, hr⟩
  refine { hi with
    queue_buffer := fun h => hi.queue_buffer (hsub h), queue_nodup := hnodup.2, running_copy := ?_
    running_buffer := ?_, running_inj := ?_, queue_running := ?_, queue_live := fun h => hi.queue_live (hsub h)
    running_live := ?_ }
  · intro w' r hr
    rcases hruns hr with ⟨-, rfl⟩ | ⟨-, hr⟩
    · exact hbuf
    · exact hi.running_copy hr
  · intro w' r hr
    rcases hruns hr with ⟨-, rfl⟩ | ⟨-, hr⟩
    · exact ⟨conn, hconn, hbuf⟩
    · exact hi.running_buffer hr
  · intro w1 w2 r1 r2 h1 h2 hc
    rcases hruns h1 with ⟨rfl, rfl⟩ | ⟨-, h1⟩ <;> rcases hruns h2 with ⟨rfl, rfl⟩ | ⟨-, h2⟩
    · rfl
    · exact absurd hc (hi.queue_running h2 hj)
    · exact absurd hc.symm (hi.queue_running h1 hj)
    · exact hi.running_inj h1 h2 hc
  · intro w' r j' hr hj'
    rcases hruns hr with ⟨-, rfl⟩ | ⟨-, hr⟩
    · exact fun e => hnodup.1 (List.mem_map.2 ⟨j', hj', e⟩)
    · exact hi.queue_running hr (hsub hj')
  · intro w' r hr
    rcases hruns hr with ⟨-, rfl⟩ | ⟨-, hr⟩
    · exact hi.queue_live hj
    · exact hi.running_live hr

/-- A worker ends its job and frees the connection's buffer. -/
lemma Owned.finish (hi : Owned s) {w b : ℕ} {r : Running} {conn : HttpConnection} (buf : List UInt8) (f : Option Fields)
    (hr : s.runs w = some r) (hconn : s.conns.get? r.job.conn = some conn) :
    Owned ((s.done w r b buf f).freeBuffer r.job.conn conn) := by
  have hbuf : conn.request.buffer = some r.job.buffer := by
    obtain ⟨conn', hc, hb⟩ := hi.running_buffer hr
    rw [hconn] at hc
    cases hc
    exact hb
  have hfreed : ((s.done w r b buf f).freeBuffer r.job.conn conn).freedBuffers = s.freedBuffers ++ [r.job.buffer] := by
    simp [State.freeBuffer, State.done, hbuf]
  have hnext : ((s.done w r b buf f).freeBuffer r.job.conn conn).buffers.next = s.buffers.next := Heap.next_put _
  have hruns : ∀ {w' r'}, ((s.done w r b buf f).freeBuffer r.job.conn conn).runs w' = some r' →
      w ≠ w' ∧ s.runs w' = some r' := by
    intro w' r' hr'
    rw [runs_freeBuffer, runs_done] at hr'
    split_ifs at hr' with e
    exact ⟨e, hr'⟩
  -- another job's buffer is not the one freed here, since it belongs to another connection
  have hne : ∀ {c conn' b'}, s.conns.get? c = some conn' → conn'.request.buffer = some b' → c ≠ r.job.conn →
      b' ≠ r.job.buffer := by
    rintro c conn' _ hc hb hne rfl
    exact hne (hi.conn_inj hc hconn hb hbuf)
  refine { hi with
    conn_lt := ?_, running_copy := ?_, running_buffer := ?_, running_inj := ?_, queue_running := ?_, freed_lt := ?_
    freed_nodup := ?_, queue_live := ?_, running_live := ?_, finished_freed := ?_ }
  · intro c conn' b' hc hb
    rw [hnext]
    exact hi.conn_lt hc hb
  · exact fun h => hi.running_copy (hruns h).2
  · exact fun h => hi.running_buffer (hruns h).2
  · exact fun h h' hc => hi.running_inj (hruns h).2 (hruns h').2 hc
  · exact fun h hj => hi.queue_running (hruns h).2 hj
  · intro b' hb'
    rw [hnext]
    rw [hfreed, List.mem_append, List.mem_singleton] at hb'
    rcases hb' with hb' | rfl
    · exact hi.freed_lt hb'
    · exact hi.conn_lt hconn hbuf
  · rw [hfreed, List.nodup_append]
    refine ⟨hi.freed_nodup, by simp, ?_⟩
    intro x hx y hy e
    rw [List.mem_singleton.1 hy] at e
    exact hi.running_live hr (e ▸ hx)
  · intro j hj
    obtain ⟨conn', hc, hb⟩ := hi.queue_buffer hj
    rw [hfreed, List.mem_append, List.mem_singleton, not_or]
    exact ⟨hi.queue_live hj, hne hc hb (hi.queue_running hr hj)⟩
  · intro w' r' hr'
    obtain ⟨hw, hr'⟩ := hruns hr'
    obtain ⟨conn', hc, hb⟩ := hi.running_buffer hr'
    rw [hfreed, List.mem_append, List.mem_singleton, not_or]
    exact ⟨hi.running_live hr', hne hc hb fun e => hw (hi.running_inj hr hr' e.symm)⟩
  · intro j hj
    rw [hfreed, List.mem_append, List.mem_singleton]
    rcases List.mem_append.1 hj with hj | hj
    · exact Or.inl (hi.finished_freed hj)
    · rw [List.mem_singleton.1 hj]
      exact Or.inr rfl

/-- **The invariant is kept by every exclusive step.** -/
theorem Owned.step {s' : State} {a : Action} (hi : Owned s) (hf : RequestsFresh s) (ho : Exclusive s a)
    (h : Step s a s') : Owned s' := by
  cases h with
  | accept fd => exact hi.accept fd
  | arrive hin hlive => exact { hi with }
  | readEmpty hin hconn hlive => exact hi
  | read hin hconn hlive hne =>
    refine hi.read _ hconn fun hb => hne ?_
    have := ho hb
    rw [hin] at this
    exact Option.some.inj this
  | start hw hq hconn => exact hi.start hw hq hconn
  | unknown hp =>
    obtain ⟨hr, hb, content, hc, hp⟩ := hp
    have hreq : _ = HttpMethodTyp.unknown := congrArg HttpRequest.method (hf.running hr)
    exact absurd ((isSome_iff_known hreq hp).2 (ho _ hr _ hb content hc)) (by simp)
  | keep hp hconn hcl => exact hi.finish _ _ hp.runs hconn
  | close hp hconn hcl hbev => exact { hi.finish _ _ hp.runs hconn with }

end Steps

/-! ### Whole runs -/

/-- No buffer is freed twice, no running job has a buffer that is freed, and the buffers of all finished jobs are. -/
def State.BuffersInOrder (s : State) : Prop :=
  s.freedBuffers.Nodup ∧ (∀ w r b, s.runs w = some r → r.req.buffer = some b → b ∉ s.freedBuffers) ∧
    ∀ j ∈ s.finished, j.buffer ∈ s.freedBuffers

/-- **Request-buffer ownership.** In every run whose steps are all exclusive, the buffers are in order in the state
reached. -/
theorem buffersInOrder_of_exclusive {n : ℕ} {acts : List Action} {s : State}
    (hg : Transition.Guarded step Exclusive (httpStart n) acts) (h : serve n acts = some s) : s.BuffersInOrder := by
  have hstart : serve n [] = some (httpStart n) := rfl
  have hinv : RequestsFresh s ∧ Owned s := by
    refine hg.invariant (I := fun s => RequestsFresh s ∧ Owned s) ?_ ⟨requests_fresh hstart, owned_httpStart n⟩ h
    rintro s a s' ⟨hf, hi⟩ ho hs
    exact ⟨hf.step (step_iff.1 hs), hi.step hf ho (step_iff.1 hs)⟩
  refine ⟨hinv.2.freed_nodup, ?_, fun j hj => hinv.2.finished_freed hj⟩
  intro w r b hr hb
  rw [hinv.2.running_copy hr] at hb
  cases hb
  exact hinv.2.running_live hr

/-- Two connections, with their callbacks and jobs between each other's, and a second request on the first one. -/
def twoConnections : List Action :=
  [.accept 3, .accept 4, .arrive 0 (bytes "GET / HTTP/1.1\r\n\r\n"), .read 0, .arrive 1 (bytes "GET / HTTP/1.1\r\n\r\n"),
    .start 1, .read 1, .start 0, .finish 1, .arrive 0 (bytes "GET / HTTP/1.1\r\n\r\n"), .read 0, .start 1, .finish 0, .finish 1]

theorem buffersInOrder_of_request : ∃ s, serve 2 twoConnections = some s ∧ s.finished.length = 3 ∧ s.BuffersInOrder := by
  have hs : serve 2 twoConnections = some _ := rfl
  exact ⟨_, hs, rfl, buffersInOrder_of_exclusive (by decide +kernel) hs⟩

/-- A request that arrives in two pieces: both jobs copy the buffer of the second callback, and when the first job ends
the other one is left with a freed buffer. -/
theorem not_buffersInOrder :
    ¬ ∀ (n : ℕ) (acts : List Action) (s : State), serve n acts = some s → s.BuffersInOrder := by
  intro h
  have hs : serve 2 [.accept 3, .arrive 0 (bytes "GET / HTTP/1.1\r\n"), .read 0, .arrive 0 (bytes "\r\n"), .read 0,
    .start 0, .start 1, .finish 0] = some _ := rfl
  exact absurd ((h _ _ _ hs).2.1 1 _ 1 rfl rfl) (by decide +kernel)

end Wrensong.Server
