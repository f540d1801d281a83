import Wrensong.Http.Partial
import Wrensong.Server.Steps

/-!
# One connection, one handler at a time

A `Channel` is what one connection looks like when no handler of it is interrupted by another one: the bytes received,
the number of jobs waiting, the buffer of the last read callback, and the parses so far. An `Event` on it is an arrival
with its read callback, or one run of `_handle_connection`. `serve_events` is the refinement: a server on whose only
connection these events happen does what the channel does.
-/

namespace Wrensong.Server

open Wrensong.Lib Wrensong.Lib.Bytes Wrensong.Http

/-! ### The channel -/

/-- Bytes arrive and are read, or the worker `w` takes a job and runs it to its end. -/
inductive Event
  | recv (data : List UInt8)
  | handle (w : ℕ)
  deriving DecidableEq, Repr

/-- The steps of the server that an event on its first connection stands for. -/
def Event.actions : Event → List Action
  | .recv data => [.arrive 0 data, .read 0]
  | .handle w => [.start w, .finish w]

structure Channel where
  received : List UInt8 := []
  waiting : ℕ := 0
  -- the number of buffers allocated, and what is in the last one
  reads : ℕ := 0
  content : List UInt8 := []
  freed : Bool := false
  closed : Bool := false
  parsed : List (Option Fields) := []
  -- a freed buffer or the freed connection has been followed
  undefined : Bool := false
  deriving DecidableEq, Repr

/-- The request of the connection, which a job copies. -/
def Channel.request (ch : Channel) : HttpRequest :=
  { buffer := if ch.reads = 0 then none else some (ch.reads - 1), bufferLen := ch.received.length }

def Channel.recv (ch : Channel) (data : List UInt8) : Channel :=
  { ch with
    received := ch.received ++ data, waiting := ch.waiting + 1, reads := ch.reads + 1,
    content := ch.received ++ data ++ [NUL], freed := false }

/-- Behind a job whose parse ended with `r` and left `buf` in the buffer. The early return frees nothing. -/
def Channel.handled (ch : Channel) (r : Option Fields) (buf : List UInt8) : Channel :=
  { ch with
    waiting := ch.waiting - 1, content := buf, freed := ch.freed || r.isSome, closed := ch.closed || r.any Fields.closing,
    parsed := ch.parsed ++ [r], undefined := ch.undefined || (ch.closed || ch.freed) }

/-- The events of a channel, with `n` workers. -/
def Channel.step (n : ℕ) (ch : Channel) : Event → Option Channel
  | .recv data => if ch.closed then none else some (ch.recv data)
  | .handle w =>
    if w < n ∧ 0 < ch.waiting then
      let p := parseRequest ch.request { buf := ch.content }
      (outcome p).map fun r => ch.handled r p.2.buf
    else none

/-! ### The refinement -/

/-- The server state `s` carries the channel `ch`: its first connection is in that state, and all workers are idle. -/
structure Carries (n : ℕ) (s : State) (ch : Channel) : Prop where
  input : s.inputs.get? 0 = some ch.received
  conn : ∃ conn, s.conns.get? 0 = some conn ∧ conn.request = ch.request ∧ (0 < ch.reads → conn.bev = some 0)
  content : 0 < ch.reads → s.buffers.get? (ch.reads - 1) = some ch.content
  next : s.buffers.next = ch.reads
  queue : s.queue.length = ch.waiting
  jobs : ∀ j ∈ s.queue, j.conn = 0
  begun : 0 < ch.waiting → 0 < ch.reads
  workers : s.workers.cells = List.replicate n none
  freed_lt : ∀ b ∈ s.freedBuffers, b < ch.reads
  freed : 0 < ch.reads → (ch.reads - 1 ∈ s.freedBuffers ↔ ch.freed = true)
  conns_closed : 0 ∈ s.freedConns ↔ ch.closed = true
  bevs_closed : 0 ∈ s.freedBevs ↔ ch.closed = true
  parsed : s.parsed = ch.parsed.map fun f => (0, f)
  undefined : (s.dangling = [] ∧ s.stale = []) ↔ ch.undefined = false

section Refinement

variable {n w : ℕ} {s : State} {ch : Channel}

lemma Carries.accept (n fd : ℕ) : Carries n (httpHandleConnection (httpStart n) fd) {} where
  input := rfl
  conn := ⟨{ fd := fd }, rfl, rfl, fun h => absurd h (lt_irrefl 0)⟩
  content := fun h => absurd h (lt_irrefl 0)
  next := rfl
  queue := rfl
  jobs := by simp [httpHandleConnection, httpStart]
  begun := fun h => h
  workers := rfl
  freed_lt := by simp [httpHandleConnection, httpStart]
  freed := fun h => absurd h (lt_irrefl 0)
  conns_closed := by simp [httpHandleConnection, httpStart]
  bevs_closed := by simp [httpHandleConnection, httpStart]
  parsed := rfl
  undefined := by simp [httpHandleConnection, httpStart]

lemma Carries.idle (h : Carries n s ch) : s.workers.get? w = if w < n then some none else none := by
  simp [Heap.get?, h.workers, List.getElem?_replicate]

/-- An arrival and its read callback. -/
lemma Carries.recv (h : Carries n s ch) {data : List UInt8} (hd : data ≠ []) :
    Option.Rel (Carries n) (Transition.run step s (Event.recv data).actions) (ch.step n (.recv data)) := by
  obtain ⟨conn, hconn, hreq, -⟩ := h.conn
  by_cases hcl : ch.closed = true
  · have hbev : 0 ∈ s.freedBevs := h.bevs_closed.2 hcl
    have hnone : Transition.run step s (Event.recv data).actions = none := by
      simp [Event.actions, Transition.run, step, arrive, h.input, hbev]
    rw [hnone, Channel.step, if_pos hcl]
    exact .none
  have hbev : 0 ∉ s.freedBevs := fun e => hcl (h.bevs_closed.1 e)
  have hfree : 0 ∉ s.freedConns := fun e => hcl (h.conns_closed.1 e)
  have hne : ch.received ++ data ≠ [] := by simp [hd]
  set s1 : State := { s with inputs := s.inputs.put 0 (ch.received ++ data) } with hs1
  have h1 : step s (.arrive 0 data) = some s1 := step_iff.2 (.arrive h.input hbev)
  have hin : s1.inputs.get? 0 = some (ch.received ++ data) := Heap.get?_put_self h.input
  have h2 : step s1 (.read 0) = some (s1.enqueue 0 conn (ch.received ++ data)) := step_iff.2 (.read hin hconn hbev hne)
  have hrun : Transition.run step s (Event.recv data).actions = some (s1.enqueue 0 conn (ch.received ++ data)) := by
    rw [Event.actions, Transition.run_cons h1, Transition.run_cons h2, Transition.run_nil]
  rw [hrun, Channel.step, if_neg hcl]
  have hnext : s1.buffers.next = ch.reads := h.next
  refine .some ⟨hin, ⟨conn.withBuffer 0 ch.reads (ch.received ++ data).length, ?_, ?_, fun _ => rfl⟩, ?_, ?_, ?_, ?_, ?_,
    h.workers, ?_, ?_, h.conns_closed, h.bevs_closed, h.parsed, ?_⟩
  · rw [State.enqueue, hnext]
    exact Heap.get?_put_self hconn
  · simp [HttpConnection.withBuffer, hreq, Channel.request, Channel.recv]
  · intro _
    simp only [State.enqueue, Channel.recv, Nat.add_sub_cancel, ← hnext]
    exact Heap.get?_alloc_next
  · simp [State.enqueue, Channel.recv, hnext]
  · simp [State.enqueue, Channel.recv, hs1, State.deref, h.queue]
  · intro j hj
    rcases List.mem_append.1 hj with hj | hj
    · exact h.jobs j hj
    · rw [List.mem_singleton.1 hj]
  · exact fun _ => Nat.succ_pos _
  · intro b hb
    exact Nat.lt_succ_of_lt (h.freed_lt b hb)
  · intro _
    have hnot : ch.reads ∉ s.freedBuffers := fun hb => lt_irrefl _ (h.freed_lt _ hb)
    simpa [State.enqueue, State.deref, Channel.recv, hs1] using hnot
  · simpa [State.enqueue, State.deref, Channel.recv, hs1, hfree] using h.undefined

/-- The start of a job and the end of its parse. -/
lemma Carries.done (h : Carries n s ch) {j : Job} {queue : List Job} (hq : s.queue = j :: queue)
    (req : HttpRequest) (buf : List UInt8) (r : Option Fields) :
    Carries n ((s.begin w j queue req).done w ⟨j, req⟩ (ch.reads - 1) buf r)
      { ch with
        waiting := ch.waiting - 1, content := buf, parsed := ch.parsed ++ [r],
        undefined := ch.undefined || (ch.closed || ch.freed) } := by
  have hj : j.conn = 0 := h.jobs j (by rw [hq]; exact List.mem_cons_self)
  have hlen := h.queue
  rw [hq, List.length_cons] at hlen
  have hreads := h.begun (by omega)
  have hcontent := h.content hreads
  refine ⟨h.input, h.conn, ?_, ?_, ?_, ?_, fun _ => hreads, ?_, h.freed_lt, h.freed, h.conns_closed, h.bevs_closed, ?_, ?_⟩
  · intro _
    exact Heap.get?_put_self hcontent
  · exact (Heap.next_put _).trans h.next
  · change queue.length = ch.waiting - 1
    omega
  · intro j' hj'
    exact h.jobs j' (by rw [hq]; exact List.mem_cons_of_mem _ hj')
  · change (s.workers.cells.set w (some _)).set w none = _
    rw [List.set_set, h.workers, List.set_replicate_self]
  · change s.parsed ++ [(j.conn, r)] = _
    rw [h.parsed, hj]
    simp
  · have hstale : ch.reads - 1 ∈ s.freedBuffers ↔ ch.freed = true := h.freed hreads
    have hdangling := h.conns_closed
    have hund := h.undefined
    simp only [State.done, State.begin, State.deref, hj, List.append_eq_nil_iff, Bool.or_eq_false_iff]
    cases hcl : ch.closed <;> cases hfr : ch.freed <;> simp_all

/-- The free of the current buffer. -/
lemma Carries.freeBuffer (h : Carries n s ch) (hreads : 0 < ch.reads) {conn : HttpConnection}
    (hconn : s.conns.get? 0 = some conn) :
    Carries n (s.freeBuffer 0 conn) { ch with freed := true, undefined := ch.undefined || ch.closed } := by
  obtain ⟨conn', hconn', hreq, -⟩ := h.conn
  obtain rfl : conn' = conn := Option.some.inj (hconn'.symm.trans hconn)
  have hbuf : conn'.request.buffer.toList = [ch.reads - 1] := by
    rw [hreq, Channel.request, if_neg (by omega)]
    rfl
  have hfreed : (s.freeBuffer 0 conn').freedBuffers = s.freedBuffers ++ [ch.reads - 1] := by
    rw [State.freeBuffer, hbuf]
  refine ⟨h.input, h.conn, h.content, h.next, h.queue, h.jobs, h.begun, h.workers, ?_, ?_, h.conns_closed, h.bevs_closed,
    h.parsed, ?_⟩
  · intro b hb
    rw [hfreed] at hb
    rcases List.mem_append.1 hb with hb | hb
    · exact h.freed_lt b hb
    · rw [List.mem_singleton.1 hb]
      exact Nat.sub_lt hreads Nat.one_pos
  · intro _
    rw [hfreed]
    simp
  · have hdangling := h.conns_closed
    have hund := h.undefined
    simp only [State.freeBuffer, State.deref, List.append_eq_nil_iff, Bool.or_eq_false_iff]
    cases hcl : ch.closed <;> simp_all

/-- The removal and the free of the connection. -/
lemma Carries.freeConn (h : Carries n s ch) : Carries n (s.freeConn 0 0) { ch with closed := true } where
  input := h.input
  conn := h.conn
  content := h.content
  next := h.next
  queue := h.queue
  jobs := h.jobs
  begun := h.begun
  workers := h.workers
  freed_lt := h.freed_lt
  freed := h.freed
  conns_closed := by simp [State.freeConn]
  bevs_closed := by simp [State.freeConn]
  parsed := h.parsed
  undefined := h.undefined

/-- One run of `_handle_connection`. -/
lemma Carries.handle (h : Carries n s ch) (w : ℕ) :
    Option.Rel (Carries n) (Transition.run step s (Event.handle w).actions) (ch.step n (.handle w)) := by
  have hidle := h.idle (w := w)
  by_cases hok : w < n ∧ 0 < ch.waiting
  swap
  · -- there is no such worker, or no job
    have hnone : step s (.start w) = none := by
      simp only [step, startJob]
      rcases not_and_or.1 hok with hw | hwait
      · rw [hidle, if_neg hw]
      · have hq : s.queue = [] := List.length_eq_zero_iff.1 (by rw [h.queue]; omega)
        rw [hq]
        cases s.workers.get? w with
        | none => rfl
        | some o => cases o <;> rfl
    have hrun : Transition.run step s (Event.handle w).actions = none := by simp [Event.actions, Transition.run, hnone]
    rw [hrun, Channel.step, if_neg hok]
    exact .none
  obtain ⟨hw, hwait⟩ := hok
  have hreads := h.begun hwait
  obtain ⟨j, queue, hq⟩ : ∃ j queue, s.queue = j :: queue :=
    List.exists_cons_of_length_pos (by rw [h.queue]; exact hwait)
  have hj : j.conn = 0 := h.jobs j (by rw [hq]; exact List.mem_cons_self)
  obtain ⟨conn, hconn, hreq, hbev⟩ := h.conn
  rw [if_pos hw] at hidle
  set s1 := s.begin w j queue conn.request with hs1
  have h1 : step s (.start w) = some s1 := step_iff.2 (.start hidle hq (hj ▸ hconn))
  have hr : s1.runs w = some ⟨j, conn.request⟩ := by rw [hs1, runs_begin hidle, if_pos rfl]
  have hb : conn.request.buffer = some (ch.reads - 1) := by
    rw [hreq, Channel.request, if_neg (by omega)]
  have hc : s1.buffers.get? (ch.reads - 1) = some ch.content := h.content hreads
  have hc' : s.conns.get? 0 = some conn := hconn
  have hdone := h.done (w := w) hq conn.request
  rw [Channel.step, if_pos ⟨hw, hwait⟩, Event.actions, Transition.run_cons h1, ← hreq]
  rcases hp : parseRequest conn.request { buf := ch.content } with ⟨e | _ | ⟨cur, l⟩, m⟩
  · have hnone : Transition.run step s1 [.finish w] = none := by
      simp [Transition.run, step, finishJob, hr, hb, hc, hp]
    rw [hnone]
    exact .none
  · have hs2 : step s1 (.finish w) = some _ := step_iff.2 (.unknown ⟨hr, hb, _, hc, hp⟩)
    rw [Transition.run_cons hs2]
    refine .some ?_
    have := hdone m.buf none
    simpa [Channel.handled] using this
  · have hbuf := (hdone m.buf (some (l.fieldsIn m.buf))).freeBuffer hreads hc'
    have hund : ∀ a b c : Bool, (a || (b || c) || b) = (a || (b || c)) := by decide
    simp only [hund] at hbuf
    rcases hcl : l.closing with _ | _
    · have hs2 : step s1 (.finish w) = some _ := step_iff.2 (.keep ⟨hr, hb, _, hc, hp⟩ (hj ▸ hconn) hcl)
      rw [Transition.run_cons hs2]
      refine .some ?_
      simpa [Channel.handled, Locals.fieldsIn, hcl, hj] using hbuf
    · have hs2 : step s1 (.finish w) = some _ := step_iff.2 (.close ⟨hr, hb, _, hc, hp⟩ (hj ▸ hconn) hcl (hbev hreads))
      rw [Transition.run_cons hs2]
      refine .some ?_
      simpa [Channel.handled, Locals.fieldsIn, hcl, hj] using hbuf.freeConn

end Refinement

/-- The bytes that arrive. -/
def Event.data : Event → List UInt8
  | .recv data => data
  | .handle _ => []

/-- **The server refines the channel.** After the first connection is accepted, events on it are possible exactly when
they are on the channel, and the state reached carries the channel's. -/
theorem serve_events (n fd : ℕ) {evs : List Event} (hne : ∀ data, .recv data ∈ evs → data ≠ []) :
    Option.Rel (Carries n) (serve n (.accept fd :: evs.flatMap Event.actions)) (Transition.run (Channel.step n) {} evs) := by
  have hacc : step (httpStart n) (.accept fd) = some _ := rfl
  rw [serve, Transition.run_cons hacc]
  refine Transition.run_rel (P := fun e => ∀ data, e = .recv data → data ≠ []) ?_ (Carries.accept n fd) ?_
  · intro s ch e hs he
    cases e with
    | recv data => exact hs.recv (he data rfl)
    | handle w => exact hs.handle w
  · rintro e he data rfl
    exact hne data he

end Wrensong.Server
