import Wrensong.Server.Requests

/-!
# What the handler leaves behind

`_handle_connection` has two exits. The one at its end frees the buffer that the connection points to by then, and the
connection with its bufferevent if the request closes. The early one, on an unknown method, frees nothing.

For the connection that makes no difference: at all times it is in the table and live, or it has left the table and is
freed with its bufferevent (`Settled`). The buffer of the job is freed exactly once only if the job takes the second exit
and still finds its buffer in the connection, or if another job of the connection has freed it before (`released_iff`).
-/

namespace Wrensong.Server

open Wrensong.Lib Wrensong.Lib.Bytes Wrensong.Http

/-- The connection is in the table and can take further requests. -/
def State.Usable (s : State) (c : ℕ) : Prop := c ∈ s.connections ∧ c ∉ s.freedBevs ∧ c ∉ s.freedConns

/-- The connection has left the table, and it is freed with its bufferevent. -/
def State.Gone (s : State) (c : ℕ) : Prop := c ∉ s.connections ∧ c ∈ s.freedBevs ∧ c ∈ s.freedConns

/-- What the job held is released: its buffer is freed once, and its connection is usable or gone. -/
def State.Released (s : State) (j : Job) : Prop :=
  s.freedBuffers.count j.buffer = 1 ∧ (s.Usable j.conn ∨ s.Gone j.conn)

/-- The job is going to free its buffer: the method is known, and the connection points to the buffer of the job. -/
def State.Frees (s : State) (r : Running) : Prop :=
  (∃ b ∈ r.req.buffer, ∃ content ∈ s.buffers.get? b, Known (token (some SP) content)) ∧
    ∃ conn ∈ s.conns.get? r.job.conn, conn.request.buffer = some r.job.buffer

instance (s : State) (r : Running) : Decidable (s.Frees r) := by
  unfold State.Frees
  infer_instance

/-! ### The connections table -/

/-- The table has the connections that are not freed, and their bufferevents are those that are not freed. -/
structure Settled (s : State) : Prop where
  bev_eq : ∀ {c conn bev}, s.conns.get? c = some conn → conn.bev = some bev → bev = c
  bevs_eq : s.freedBevs = s.freedConns
  table : ∀ c, c ∈ s.connections ↔ c < s.conns.next ∧ c ∉ s.freedConns
  freed_lt : ∀ {c}, c ∈ s.freedConns → c < s.conns.next
  nodup : s.connections.Nodup
  queue_lt : ∀ {j}, j ∈ s.queue → j.conn < s.conns.next
  running_lt : ∀ {w r}, s.runs w = some r → r.job.conn < s.conns.next

section Steps

variable {s : State}

lemma settled_httpStart (n : ℕ) : Settled (httpStart n) := by
  refine ⟨?_, rfl, ?_, ?_, ?_, ?_, ?_⟩
  · intro c conn bev hc
    simp [httpStart, Heap.get?] at hc
  · simp [httpStart, Heap.next]
  · simp [httpStart]
  · simp [httpStart]
  · simp [httpStart]
  · intro w r hr
    rw [runs_httpStart] at hr
    cases hr

lemma Settled.accept (hi : Settled s) (fd : ℕ) : Settled (httpHandleConnection s fd) := by
  have hnext : (httpHandleConnection s fd).conns.next = s.conns.next + 1 := Heap.next_alloc _
  have hfresh : s.conns.next ∉ s.freedConns := fun h => absurd (hi.freed_lt h) (by omega)
  refine { hi with
    bev_eq := ?_, table := ?_, freed_lt := ?_, nodup := ?_, queue_lt := ?_, running_lt := ?_ }
  · intro c conn bev hc hb
    rcases Heap.get?_alloc_cases hc with ⟨-, rfl⟩ | hc
    · cases hb
    · exact hi.bev_eq hc hb
  · intro c
    rw [hnext]
    simp only [httpHandleConnection, List.mem_append, List.mem_singleton, hi.table c]
    constructor
    · rintro (⟨h1, h2⟩ | rfl)
      · exact ⟨by omega, h2⟩
      · exact ⟨by omega, hfresh⟩
    · rintro ⟨h1, h2⟩
      by_cases e : c = s.conns.next
      · exact Or.inr e
      · exact Or.inl ⟨by omega, h2⟩
  · intro c hc
    rw [hnext]
    exact Nat.lt_succ_of_lt (hi.freed_lt hc)
  · simp only [httpHandleConnection]
    rw [List.nodup_append]
    refine ⟨hi.nodup, by simp, ?_⟩
    intro x hx y hy e
    rw [List.mem_singleton.1 hy] at e
    have := ((hi.table x).1 hx).1
    omega
  · intro j hj
    rw [hnext]
    exact Nat.lt_succ_of_lt (hi.queue_lt hj)
  · intro w r hr
    rw [hnext]
    exact Nat.lt_succ_of_lt (hi.running_lt hr)

lemma Settled.enqueue (hi : Settled s) {c : ℕ} {conn : HttpConnection} (input : List UInt8)
    (hconn : s.conns.get? c = some conn) : Settled (s.enqueue c conn input) := by
  have hnext : (s.enqueue c conn input).conns.next = s.conns.next := Heap.next_put _
  refine { hi with bev_eq := ?_, table := ?_, freed_lt := ?_, queue_lt := ?_, running_lt := ?_ }
  · intro c' conn' bev hc' hb
    rcases Heap.get?_put_cases hc' with ⟨rfl, rfl⟩ | ⟨-, hc'⟩
    · exact (Option.some.inj hb).symm
    · exact hi.bev_eq hc' hb
  · intro c'
    rw [hnext]
    exact hi.table c'
  · intro c' hc'
    rw [hnext]
    exact hi.freed_lt hc'
  · intro j hj
    rw [hnext]
    rcases List.mem_append.1 hj with hj | hj
    · exact hi.queue_lt hj
    · rw [List.mem_singleton.1 hj]
      exact Heap.lt_next hconn
  · intro w r hr
    rw [hnext]
    exact hi.running_lt hr

lemma Settled.start (hi : Settled s) {w : ℕ} {j : Job} {queue : List Job} {req : HttpRequest}
    (hw : s.workers.get? w = some none) (hq : s.queue = j :: queue) : Settled (s.begin w j queue req) := by
  refine { hi with queue_lt := ?_, running_lt := ?_ }
  · intro j' hj'
    exact hi.queue_lt (by rw [hq]; exact List.mem_cons_of_mem _ hj')
  · intro w' r hr
    rw [runs_begin hw] at hr
    split_ifs at hr
    · cases hr
      exact hi.queue_lt (by rw [hq]; exact List.mem_cons_self)
    · exact hi.running_lt hr

lemma Settled.done (hi : Settled s) {w b : ℕ} {r : Running} (buf : List UInt8) (f : Option Fields) :
    Settled (s.done w r b buf f) := by
  refine { hi with running_lt := ?_ }
  intro w' r' hr'
  rw [runs_done] at hr'
  split_ifs at hr'
  exact hi.running_lt hr'

lemma Settled.freeBuffer (hi : Settled s) (c : ℕ) (conn : HttpConnection) : Settled (s.freeBuffer c conn) := { hi with }

lemma Settled.freeConn (hi : Settled s) {c : ℕ} (hc : c < s.conns.next) : Settled (s.freeConn c c) := by
  have hmem : ∀ {x}, x ∈ (s.freeConn c c).freedConns ↔ x ∈ s.freedConns ∨ x = c := by simp [State.freeConn]
  refine { hi with bevs_eq := ?_, table := ?_, freed_lt := ?_, nodup := hi.nodup.erase c }
  · simp [State.freeConn, hi.bevs_eq]
  · intro x
    rw [hmem, State.freeConn, hi.nodup.mem_erase_iff, hi.table x]
    tauto
  · intro x hx
    rcases hmem.1 hx with hx | rfl
    · exact hi.freed_lt hx
    · exact hc

/-- **The table is settled behind every step.** -/
theorem Settled.step {s' : State} {a : Action} (hi : Settled s) (h : Step s a s') : Settled s' := by
  cases h with
  | accept fd => exact hi.accept fd
  | arrive hin hlive => exact { hi with }
  | readEmpty hin hconn hlive => exact hi
  | read hin hconn hlive hne => exact hi.enqueue _ hconn
  | start hw hq hconn => exact hi.start hw hq
  | unknown hp => exact hi.done _ _
  | keep hp hconn hcl => exact (hi.done _ _).freeBuffer _ _
  | close hp hconn hcl hbev =>
    obtain rfl := hi.bev_eq hconn hbev
    exact ((hi.done _ _).freeBuffer _ _).freeConn (Heap.lt_next hconn)

end Steps

theorem settled_of_serve {n : ℕ} {acts : List Action} {s : State} (h : serve n acts = some s) : Settled s :=
  Transition.invariant_of_run (fun hi hs => hi.step (step_iff.1 hs)) (settled_httpStart n) h

/-- A connection is usable or gone, never something in between. -/
lemma Settled.usable_or_gone {s : State} (hi : Settled s) {c : ℕ} (hc : c < s.conns.next) : s.Usable c ∨ s.Gone c := by
  unfold State.Usable State.Gone
  rw [hi.table, hi.bevs_eq]
  by_cases hf : c ∈ s.freedConns
  · exact Or.inr ⟨fun h => h.2 hf, hf, hf⟩
  · exact Or.inl ⟨⟨hc, hf⟩, hf, hf⟩

/-! ### The buffer of the job -/

section Finish

variable {s s' : State} {w b : ℕ} {r : Running} {res : Option (Cursor × Locals)} {m : Mem}

lemma frees_iff (hf : RequestsFresh s) (hp : Parses s w r b res m) :
    s.Frees r ↔ res.isSome = true ∧ ∃ conn ∈ s.conns.get? r.job.conn, conn.request.buffer = some r.job.buffer := by
  obtain ⟨hr, hb, content, hc, hparse⟩ := hp
  have hreq : r.req.method = HttpMethodTyp.unknown := congrArg HttpRequest.method (hf.running hr)
  unfold State.Frees
  rw [isSome_iff_known hreq hparse]
  refine and_congr_left fun _ => ?_
  constructor
  · rintro ⟨b', hb', content', hc', hk⟩
    obtain rfl := Option.some.inj (hb.symm.trans hb')
    obtain rfl := Option.some.inj (hc.symm.trans hc')
    exact hk
  · exact fun hk => ⟨b, hb, content, hc, hk⟩

/-- The exit at the end frees the buffer of the connection. -/
lemma count_freeBuffer (hf : RequestsFresh s) {cur : Cursor} {l : Locals} (hp : Parses s w r b (some (cur, l)) m)
    {conn : HttpConnection} (hconn : s.conns.get? r.job.conn = some conn) :
    (s.freedBuffers ++ conn.request.buffer.toList).count r.job.buffer =
      s.freedBuffers.count r.job.buffer + if s.Frees r then 1 else 0 := by
  have hfrees : s.Frees r ↔ conn.request.buffer = some r.job.buffer := by
    rw [frees_iff hf hp, hconn]
    simp
  rw [List.count_append]
  congr 1
  by_cases hb : conn.request.buffer = some r.job.buffer
  · rw [if_pos (hfrees.2 hb), hb]
    simp
  · rw [if_neg (mt hfrees.1 hb), List.count_eq_zero]
    simpa using hb

/-- **What a job that ends does to the freed buffers.** -/
lemma freedBuffers_finish (hf : RequestsFresh s) (hr : s.runs w = some r) (h : Step s (.finish w) s') :
    s'.freedBuffers.count r.job.buffer = s.freedBuffers.count r.job.buffer + if s.Frees r then 1 else 0 := by
  cases h with
  | unknown hp =>
    obtain rfl := Option.some.inj (hr.symm.trans hp.runs)
    have hnot : ¬ s.Frees r := fun hfree => absurd ((frees_iff hf hp).1 hfree).1 (by simp)
    rw [if_neg hnot]
    rfl
  | keep hp hconn hclosing =>
    obtain rfl := Option.some.inj (hr.symm.trans hp.runs)
    exact count_freeBuffer hf hp hconn
  | close hp hconn hclosing hbev =>
    obtain rfl := Option.some.inj (hr.symm.trans hp.runs)
    exact count_freeBuffer hf hp hconn

end Finish

/-- **When a job releases what it held.** In every state that a run reaches, a job that ends frees its buffer and the
buffer was not freed yet, or it does not free it and it was freed once. -/
theorem released_iff {n : ℕ} {acts : List Action} {s s' : State} {w : ℕ} {r : Running} (h : serve n acts = some s)
    (hr : s.runs w = some r) (hs : step s (.finish w) = some s') :
    s'.Released r.job ↔
      (s.Frees r ∧ r.job.buffer ∉ s.freedBuffers) ∨ (¬ s.Frees r ∧ s.freedBuffers.count r.job.buffer = 1) := by
  have hstep := step_iff.1 hs
  have hi := settled_of_serve h
  have hlt : r.job.conn < s'.conns.next := by
    have hlt := hi.running_lt hr
    cases hstep with
    | unknown hp => exact hlt
    | keep hp hconn hclosing => exact hlt
    | close hp hconn hclosing hbev => exact hlt
  rw [State.Released, and_iff_left ((hi.step hstep).usable_or_gone hlt), freedBuffers_finish (requests_fresh h) hr hstep]
  by_cases hfree : s.Frees r
  · simp [hfree, List.count_eq_zero]
  · simp [hfree]

/-- One request, read and handled. -/
theorem released_of_request : ∃ s s' r,
    serve 1 [.accept 3, .arrive 0 (bytes "GET / HTTP/1.1\r\n\r\n"), .read 0, .start 0] = some s ∧
      step s (.finish 0) = some s' ∧ s.runs 0 = some r ∧ s'.Released r.job := by
  have h : serve 1 [.accept 3, .arrive 0 (bytes "GET / HTTP/1.1\r\n\r\n"), .read 0, .start 0] = some _ := rfl
  exact ⟨_, _, _, h, rfl, rfl, (released_iff (w := 0) h rfl rfl).2 (by decide +kernel)⟩

/-- A method that is not known: the buffer is not freed, and no other job has it. -/
theorem not_released : ¬ ∀ (n : ℕ) (acts : List Action) (s s' : State) (w : ℕ) (r : Running), serve n acts = some s →
    s.runs w = some r → step s (.finish w) = some s' → s'.Released r.job := by
  intro hall
  have hrel := hall 1 [.accept 3, .arrive 0 (bytes "FOO / HTTP/1.1\r\n\r\n"), .read 0, .start 0] _ _ 0 _ rfl rfl rfl
  exact absurd hrel.1 (by decide +kernel)

end Wrensong.Server
