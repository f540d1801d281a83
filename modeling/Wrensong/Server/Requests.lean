import Wrensong.Http.Recover
import Wrensong.Server.Steps

/-!
# The request a connection keeps

A worker fills in its own copy of `conn->request`. The connection's own request is written by `_http_read` only, and only
the two buffer fields of it, so whatever a connection has been used for, a job starts from an empty request
(`requests_fresh`). With that the parser recovers each request as if it were the first of its connection.
-/

namespace Wrensong.Server

open Wrensong.Lib Wrensong.Lib.Bytes Wrensong.Http

/-- A request with nothing in it but its buffer. -/
def Fresh (q : HttpRequest) : Prop := q = { buffer := q.buffer, bufferLen := q.bufferLen }

/-- The requests of all connections and all running jobs are fresh. -/
structure RequestsFresh (s : State) : Prop where
  conns : ∀ {c conn}, s.conns.get? c = some conn → Fresh conn.request
  running : ∀ {w r}, s.runs w = some r → Fresh r.req

lemma RequestsFresh.step {s s' : State} {a : Action} (hi : RequestsFresh s) (h : Step s a s') : RequestsFresh s' := by
  cases h with
  | accept fd =>
    refine ⟨?_, hi.running⟩
    intro c conn hc
    rcases Heap.get?_alloc_cases hc with ⟨-, rfl⟩ | hc
    · rfl
    · exact hi.conns hc
  | arrive hin hlive => exact ⟨hi.conns, hi.running⟩
  | readEmpty hin hconn hlive => exact hi
  | read hin hconn hlive hne =>
    refine ⟨?_, hi.running⟩
    intro c' conn' hc'
    rcases Heap.get?_put_cases hc' with ⟨-, rfl⟩ | ⟨-, hc'⟩
    · have hf := hi.conns hconn
      unfold Fresh at hf ⊢
      simp only [HttpConnection.withBuffer]
      rw [hf]
    · exact hi.conns hc'
  | start hw hq hconn =>
    refine ⟨hi.conns, ?_⟩
    intro w' r' hr'
    rw [runs_begin hw] at hr'
    split_ifs at hr'
    · cases hr'
      exact hi.conns hconn
    · exact hi.running hr'
  | unknown hp =>
    refine ⟨hi.conns, ?_⟩
    intro w' r' hr'
    rw [runs_done] at hr'
    split_ifs at hr'
    exact hi.running hr'
  | keep hp hconn hcl =>
    refine ⟨hi.conns, ?_⟩
    intro w' r' hr'
    rw [runs_freeBuffer, runs_done] at hr'
    split_ifs at hr'
    exact hi.running hr'
  | close hp hconn hcl hbev =>
    refine ⟨hi.conns, ?_⟩
    intro w' r' hr'
    rw [runs_freeConn, runs_freeBuffer, runs_done] at hr'
    split_ifs at hr'
    exact hi.running hr'

/-- **Requests stay fresh** over every run. -/
theorem requests_fresh {n : ℕ} {acts : List Action} {s : State} (h : serve n acts = some s) : RequestsFresh s := by
  refine Transition.invariant_of_run (fun hi hs => hi.step (step_iff.1 hs)) ⟨?_, ?_⟩ h
  · intro c conn hc
    simp [httpStart, Heap.get?] at hc
  · intro w r hr
    rw [runs_httpStart] at hr
    cases hr

/-- **The parser recovers what a client wrote**, on any connection of a server that has run for any time: it reads the
buffer in bounds, and its locals are the fields of the request. -/
theorem recovered_of_serve {n : ℕ} {acts : List Action} {s : State} (h : serve n acts = some s) {c : ℕ}
    {conn : HttpConnection} (hc : s.conns.get? c = some conn) (q : ClientRequest) (b : Option ℕ) (k : ℕ) :
    Recovers (parseRequest { conn.request with buffer := b, bufferLen := k } (.ofReceived q.wire)) q.wire.length
      q.fields := by
  have hf : conn.request = _ := (requests_fresh h).conns hc
  rw [hf]
  exact q.recovered b k

/-- A request with a header that is given twice. -/
def exampleRequest : ClientRequest where
  method := bytes "PUT"
  typ := .put
  path := bytes "/a"
  version := bytes "HTTP/1.1"
  headers := [
    { name := bytes "Host", value := bytes "x", name_ne := by decide, name_ok := by decide +kernel, value_ok := by decide +kernel,
      name_known := by decide },
    { name := bytes "Host", value := bytes "y", name_ne := by decide, name_ok := by decide +kernel, value_ok := by decide +kernel,
      name_known := by decide }]
  body := []
  method_known := by decide
  path_ok := by decide +kernel
  version_ok := by decide +kernel
  headers_le := by decide

/-- The request on a connection that has been used before. -/
theorem recovered_of_serve_again :
    ∃ s conn, serve 1 [.accept 3, .arrive 0 (bytes "GET / HTTP/1.1\r\n\r\n"), .read 0, .start 0, .finish 0] = some s ∧
      s.parsed.length = 1 ∧ s.conns.get? 0 = some conn ∧
      Recovers (parseRequest { conn.request with buffer := some 1, bufferLen := 40 } (.ofReceived exampleRequest.wire))
        exampleRequest.wire.length exampleRequest.fields := by
  have hs : serve 1 [.accept 3, .arrive 0 (bytes "GET / HTTP/1.1\r\n\r\n"), .read 0, .start 0, .finish 0] = some _ := rfl
  exact ⟨_, _, hs, by decide +kernel, rfl, recovered_of_serve (c := 0) hs rfl exampleRequest (some 1) 40⟩

end Wrensong.Server
