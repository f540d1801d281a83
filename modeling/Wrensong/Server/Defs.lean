import Wrensong.Http.Message
import Wrensong.Lib.Heap
import Wrensong.Lib.Transition

/-!
# The server: connections, the event loop and the worker pool

The state is what `http.c` keeps: the connections, the input evbuffer of each one's bufferevent, the request buffers, the
connections table, the pool's queue and what each worker holds. The actions are the steps between which the threads
interleave:

* `accept`: `http_handle_connection`;
* `arrive`: libevent appends bytes to an input evbuffer;
* `read`: libevent calls `_http_read`;
* `start`: a worker takes the first job and copies `conn->request`;
* `finish`: the worker's `_handle_connection` parses its buffer and frees.

A freed cell keeps its contents. A step that follows a pointer to one is taken all the same and recorded, in `dangling`
for connections and in `stale` for buffers, so that "no use after free" is a statement about the state. `none` is an
action that is not enabled, or a handler that faults.
-/

namespace Wrensong.Server

open Wrensong.Lib Wrensong.Lib.Bytes Wrensong.Http

/-- `struct _HttpConnection`. -/
structure HttpConnection where
  fd : ℕ
  request : HttpRequest := {}
  bev : Option ℕ := none
  deriving DecidableEq, Repr

/-- An entry of the pool's queue. The pool holds the connection only; `buffer` records which buffer was allocated for
the job. -/
structure Job where
  conn : ℕ
  buffer : ℕ
  deriving DecidableEq, Repr

/-- What a worker holds between its start and its end: the job and its copy of the request. -/
structure Running where
  job : Job
  req : HttpRequest
  deriving DecidableEq, Repr

/-- The server. A bufferevent has the address of the connection it was made for. -/
structure State where
  conns : Heap HttpConnection := {}
  inputs : Heap (List UInt8) := {}
  buffers : Heap (List UInt8) := {}
  connections : List ℕ := []
  queue : List Job := []
  workers : Heap (Option Running) := {}
  freedConns : List ℕ := []
  freedBevs : List ℕ := []
  freedBuffers : List ℕ := []
  -- what happened so far; no step reads it
  handed : List (ℕ × List UInt8) := []
  finished : List Job := []
  parsed : List (ℕ × Option Fields) := []
  removed : List ℕ := []
  dangling : List ℕ := []
  stale : List ℕ := []
  deriving DecidableEq, Repr

/-- `http_start`: a pool of idle workers. -/
def httpStart (threads : ℕ) : State := { workers := ⟨List.replicate threads none⟩ }

/-- What a worker holds. -/
def State.runs (s : State) (w : ℕ) : Option Running := (s.workers.get? w).join

/-- Follows the pointer to a connection. -/
def State.deref (s : State) (c : ℕ) : State :=
  { s with dangling := s.dangling ++ if c ∈ s.freedConns then [c] else [] }

/-- `http_handle_connection`: a connection in the table and its bufferevent. -/
def httpHandleConnection (s : State) (fd : ℕ) : State :=
  { s with conns := s.conns.alloc { fd := fd }, inputs := s.inputs.alloc [],
           connections := s.connections ++ [s.conns.next] }

/-- Bytes arrive on a bufferevent that is not freed. -/
def arrive (s : State) (c : ℕ) (data : List UInt8) : Option State :=
  match s.inputs.get? c with
  | some input => if c ∈ s.freedBevs then none else some { s with inputs := s.inputs.put c (input ++ data) }
  | none => none

/-- `_http_read`. `evbuffer_copyout` leaves the bytes in the evbuffer. -/
def httpRead (s : State) (c : ℕ) : Option State :=
  match s.inputs.get? c, s.conns.get? c with
  | some input, some conn =>
    if c ∈ s.freedBevs then none
    else if input = [] then some s
    else
      let b := s.buffers.next
      some { s.deref c with
        conns := s.conns.put c { conn with
          request := { conn.request with buffer := some b, bufferLen := input.length }, bev := some c },
        buffers := s.buffers.alloc (input ++ [NUL]), queue := s.queue ++ [⟨c, b⟩],
        handed := s.handed ++ [(c, input)] }
  | _, _ => none

/-- A worker takes the first job of the queue and copies the request of its connection. -/
def startJob (s : State) (w : ℕ) : Option State :=
  match s.workers.get? w, s.queue with
  | some none, j :: queue =>
    match s.conns.get? j.conn with
    | some conn =>
      some { s.deref j.conn with queue := queue, workers := s.workers.put w (some ⟨j, conn.request⟩) }
    | none => none
  | _, _ => none

/-- The end of `_handle_connection`: the connection's current buffer is freed and, if the request closes, the connection
leaves the table and is freed with its bufferevent. -/
def release (s : State) (c : ℕ) (closing : Bool) : Option State :=
  match s.conns.get? c with
  | some conn =>
    let s := { s.deref c with freedBuffers := s.freedBuffers ++ conn.request.buffer.toList }
    if closing then
      match conn.bev with
      | some bev =>
        some { s with connections := s.connections.erase c, removed := s.removed ++ [c],
                      freedBevs := s.freedBevs ++ [bev], freedConns := s.freedConns ++ [c] }
      | none => none
    else some s
  | none => none

/-- A worker is done with its job: `buf` is what its parse has left of the buffer `b`. -/
def State.done (s : State) (w : ℕ) (r : Running) (b : ℕ) (buf : List UInt8) (f : Option Fields) : State :=
  { s with
    buffers := s.buffers.put b buf, workers := s.workers.put w none, finished := s.finished ++ [r.job],
    parsed := s.parsed ++ [(r.job.conn, f)], stale := s.stale ++ if b ∈ s.freedBuffers then [b] else [] }

/-- `_handle_connection` on the job of a worker, from the copied request on. -/
def finishJob (s : State) (w : ℕ) : Option State :=
  match s.runs w with
  | some r =>
    match r.req.buffer with
    | some b =>
      match s.buffers.get? b with
      | some content =>
        match parseRequest r.req { buf := content } with
        | (.error _, _) => none
        | (.ok none, m) => some (s.done w r b m.buf none)
        | (.ok (some (_, l)), m) => release (s.done w r b m.buf (some (l.fieldsIn m.buf))) r.job.conn l.closing
      | none => none
    | none => none
  | none => none

/-- The steps of the server. -/
inductive Action
  | accept (fd : ℕ)
  | arrive (c : ℕ) (data : List UInt8)
  | read (c : ℕ)
  | start (w : ℕ)
  | finish (w : ℕ)
  deriving DecidableEq, Repr

def step (s : State) : Action → Option State
  | .accept fd => some (httpHandleConnection s fd)
  | .arrive c data => arrive s c data
  | .read c => httpRead s c
  | .start w => startJob s w
  | .finish w => finishJob s w

/-- A run of the server from its start. -/
def serve (threads : ℕ) (acts : List Action) : Option State := Transition.run step (httpStart threads) acts

end Wrensong.Server
