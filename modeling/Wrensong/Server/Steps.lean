import Wrensong.Server.Defs

/-!
# What a step of the server can do

`Step s a s'` has one constructor for each way the action `a` goes in the state `s`. `step_iff` says that these are the
steps of the model, so that every invariant is proved by cases on `Step` and no proof unfolds the model.
-/

namespace Wrensong.Server

open Wrensong.Lib Wrensong.Lib.Bytes Wrensong.Http

/-! ### The states that steps leave -/

/-- What `_http_read` makes of a connection for which it has filled the buffer `b` with `n` bytes. -/
def HttpConnection.withBuffer (conn : HttpConnection) (c b n : ℕ) : HttpConnection :=
  { conn with request := { conn.request with buffer := some b, bufferLen := n }, bev := some c }

/-- Behind a read callback that found `input`. -/
def State.enqueue (s : State) (c : ℕ) (conn : HttpConnection) (input : List UInt8) : State :=
  { s.deref c with
    conns := s.conns.put c (conn.withBuffer c s.buffers.next input.length),
    buffers := s.buffers.alloc (input ++ [NUL]), queue := s.queue ++ [⟨c, s.buffers.next⟩],
    handed := s.handed ++ [(c, input)] }

/-- Behind the start of the job `j` with the copy `req`. -/
def State.begin (s : State) (w : ℕ) (j : Job) (queue : List Job) (req : HttpRequest) : State :=
  { s.deref j.conn with queue := queue, workers := s.workers.put w (some ⟨j, req⟩) }

/-- Behind the free of a connection's current buffer. -/
def State.freeBuffer (s : State) (c : ℕ) (conn : HttpConnection) : State :=
  { s.deref c with freedBuffers := s.freedBuffers ++ conn.request.buffer.toList }

/-- Behind the removal and the free of a connection. -/
def State.freeConn (s : State) (c bev : ℕ) : State :=
  { s with connections := s.connections.erase c, removed := s.removed ++ [c], freedBevs := s.freedBevs ++ [bev],
           freedConns := s.freedConns ++ [c] }

section Fields

variable {s : State} {w w' c : ℕ}

lemma runs_begin {j : Job} {queue : List Job} {req : HttpRequest} (hw : s.workers.get? w = some none) :
    (s.begin w j queue req).runs w' = if w = w' then some ⟨j, req⟩ else s.runs w' := by
  simp only [State.begin, State.deref, State.runs, Heap.get?_put]
  split_ifs with e
  · rw [← e, hw]
    rfl
  · rfl

lemma runs_done {r : Running} {b : ℕ} {buf : List UInt8} {f : Option Fields} :
    (s.done w r b buf f).runs w' = if w = w' then none else s.runs w' := by
  simp only [State.done, State.runs, Heap.get?_put]
  split_ifs with e
  · cases s.workers.get? w' <;> rfl
  · rfl

@[simp] lemma runs_freeBuffer {conn : HttpConnection} : (s.freeBuffer c conn).runs w = s.runs w := rfl

@[simp] lemma runs_freeConn {bev : ℕ} : (s.freeConn c bev).runs w = s.runs w := rfl

lemma runs_lt {r : Running} (h : s.runs w = some r) : w < s.workers.next := by
  unfold State.runs at h
  rcases hw : s.workers.get? w with _ | o
  · simp [hw] at h
  · exact Heap.lt_next hw

lemma runs_httpStart {n : ℕ} : (httpStart n).runs w = none := by
  simp only [httpStart, State.runs, Heap.get?]
  rcases h : (List.replicate n (none : Option Running))[w]? with _ | o
  · rfl
  · rw [List.getElem?_replicate] at h
    split_ifs at h with hlt
    cases h
    rfl

end Fields

/-! ### The steps -/

/-- A job that a worker is about to finish: its buffer, the bytes there, and how the parse goes. -/
structure Parses (s : State) (w : ℕ) (r : Running) (b : ℕ) (res : Option (Cursor × Locals)) (m : Mem) : Prop where
  runs : s.runs w = some r
  buffer : r.req.buffer = some b
  parse : ∃ content, s.buffers.get? b = some content ∧ parseRequest r.req { buf := content } = (.ok res, m)

inductive Step (s : State) : Action → State → Prop
  | accept (fd : ℕ) : Step s (.accept fd) (httpHandleConnection s fd)
  | arrive {c : ℕ} {data input : List UInt8} (hin : s.inputs.get? c = some input) (hlive : c ∉ s.freedBevs) :
      Step s (.arrive c data) { s with inputs := s.inputs.put c (input ++ data) }
  | readEmpty {c : ℕ} {conn : HttpConnection} (hin : s.inputs.get? c = some []) (hconn : s.conns.get? c = some conn)
      (hlive : c ∉ s.freedBevs) : Step s (.read c) s
  | read {c : ℕ} {input : List UInt8} {conn : HttpConnection} (hin : s.inputs.get? c = some input)
      (hconn : s.conns.get? c = some conn) (hlive : c ∉ s.freedBevs) (hne : input ≠ []) :
      Step s (.read c) (s.enqueue c conn input)
  | start {w : ℕ} {j : Job} {queue : List Job} {conn : HttpConnection} (hw : s.workers.get? w = some none)
      (hq : s.queue = j :: queue) (hconn : s.conns.get? j.conn = some conn) :
      Step s (.start w) (s.begin w j queue conn.request)
  | unknown {w b : ℕ} {r : Running} {m : Mem} (hp : Parses s w r b none m) :
      Step s (.finish w) (s.done w r b m.buf none)
  | keep {w b : ℕ} {r : Running} {m : Mem} {cur : Cursor} {l : Locals} {conn : HttpConnection}
      (hp : Parses s w r b (some (cur, l)) m) (hconn : s.conns.get? r.job.conn = some conn)
      (hclosing : l.closing = false) :
      Step s (.finish w) ((s.done w r b m.buf (some (l.fieldsIn m.buf))).freeBuffer r.job.conn conn)
  | close {w b bev : ℕ} {r : Running} {m : Mem} {cur : Cursor} {l : Locals} {conn : HttpConnection}
      (hp : Parses s w r b (some (cur, l)) m) (hconn : s.conns.get? r.job.conn = some conn)
      (hclosing : l.closing = true) (hbev : conn.bev = some bev) :
      Step s (.finish w)
        (((s.done w r b m.buf (some (l.fieldsIn m.buf))).freeBuffer r.job.conn conn).freeConn r.job.conn bev)

lemma release_iff {s s' : State} {c : ℕ} {closing : Bool} :
    release s c closing = some s' ↔ ∃ conn, s.conns.get? c = some conn ∧
      ((closing = false ∧ s' = s.freeBuffer c conn) ∨
        (closing = true ∧ ∃ bev, conn.bev = some bev ∧ s' = (s.freeBuffer c conn).freeConn c bev)) := by
  unfold release
  rcases hc : s.conns.get? c with _ | conn
  · simp
  cases closing with
  | false => simp [State.freeBuffer, eq_comm]
  | true =>
    rcases hb : conn.bev with _ | bev
    · simp [hb]
    · simp [hb, State.freeBuffer, State.freeConn, eq_comm]

lemma finishJob_step {s s' : State} {w : ℕ} (h : finishJob s w = some s') : Step s (.finish w) s' := by
  unfold finishJob at h
  rcases hr : s.runs w with _ | r
  · simp [hr] at h
  rcases hb : r.req.buffer with _ | b
  · simp [hr, hb] at h
  rcases hc : s.buffers.get? b with _ | content
  · simp [hr, hb, hc] at h
  simp only [hr, hb, hc] at h
  rcases hp : parseRequest r.req { buf := content } with ⟨e | _ | ⟨cur, l⟩, m⟩
  · simp [hp] at h
  · simp only [hp, Option.some.injEq] at h
    subst h
    exact .unknown ⟨hr, hb, content, hc, hp⟩
  · simp only [hp] at h
    obtain ⟨conn, hconn, ⟨hcl, rfl⟩ | ⟨hcl, bev, hbev, rfl⟩⟩ := release_iff.1 h
    · exact .keep ⟨hr, hb, content, hc, hp⟩ hconn hcl
    · exact .close ⟨hr, hb, content, hc, hp⟩ hconn hcl hbev

/-- **The steps of the model** are the ones of `Step`. -/
theorem step_iff {s s' : State} {a : Action} : step s a = some s' ↔ Step s a s' := by
  constructor
  · intro h
    cases a with
    | accept fd =>
      cases h
      exact .accept fd
    | arrive c data =>
      simp only [step, Server.arrive] at h
      rcases hin : s.inputs.get? c with _ | input
      · simp [hin] at h
      simp only [hin] at h
      split_ifs at h with hlive
      cases h
      exact .arrive hin hlive
    | read c =>
      simp only [step, httpRead] at h
      rcases hin : s.inputs.get? c with _ | input
      · simp [hin] at h
      rcases hconn : s.conns.get? c with _ | conn
      · simp [hin, hconn] at h
      simp only [hin, hconn] at h
      split_ifs at h with hlive hne
      · cases h
        subst hne
        exact .readEmpty hin hconn hlive
      · cases h
        exact .read hin hconn hlive hne
    | start w =>
      simp only [step, startJob] at h
      split at h
      · rename_i j queue hw hq
        rcases hconn : s.conns.get? j.conn with _ | conn
        · simp [hconn] at h
        simp only [hconn, Option.some.injEq] at h
        subst h
        exact .start hw hq hconn
      · simp at h
    | finish w => exact finishJob_step h
  · rintro (fd | ⟨hin, hlive⟩ | ⟨hin, hconn, hlive⟩ | ⟨hin, hconn, hlive, hne⟩ | ⟨hw, hq, hconn⟩ | ⟨hr, hb, _, hc, hp⟩ |
      ⟨⟨hr, hb, _, hc, hp⟩, hconn, hcl⟩ | ⟨⟨hr, hb, _, hc, hp⟩, hconn, hcl, hbev⟩)
    · rfl
    · simp [step, Server.arrive, hin, hlive]
    · simp [step, httpRead, hin, hconn, hlive]
    · simp [step, httpRead, hin, hconn, hlive, hne, State.enqueue, HttpConnection.withBuffer]
    · simp [step, startJob, hw, hq, hconn, State.begin]
    · simp [step, finishJob, hr, hb, hc, hp]
    · simp only [step, finishJob, hr, hb, hc, hp]
      exact release_iff.2 ⟨_, hconn, Or.inl ⟨hcl, rfl⟩⟩
    · simp only [step, finishJob, hr, hb, hc, hp]
      exact release_iff.2 ⟨_, hconn, Or.inr ⟨hcl, _, hbev, rfl⟩⟩

end Wrensong.Server
