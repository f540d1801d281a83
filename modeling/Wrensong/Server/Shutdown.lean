import Wrensong.Server.Lifetime
import Wrensong.Server.Requests

/-!
# Shutting down

`http_end` stops the libevent thread, frees the event base and only then ends the pool. Its steps interleave with those of
the server: callbacks stop when the thread is joined, a worker takes no job when the pool is cancelled, and it has ended
the one it had when it is joined.

Two things can go wrong, each at one kind of step (`Safe`): a job closes its connection when the base is gone, and
`pool_end` discards a job for which no job has done the work. What a discarded job holds is freed only by jobs that have
ended before: one that closed its connection, and one that found its buffer in the connection. `Recorded` says that the
connections and the buffers that are freed are those of the jobs that have ended.
-/

namespace Wrensong.Server

open Wrensong.Lib Wrensong.Lib.Bytes Wrensong.Http

/-- How far `http_end` is: not called yet, or behind one of the steps of it and of `pool_end`. -/
inductive Phase
  | serving
  | loopBroken
  | threadJoined
  | baseFreed
  | poolCancelled
  | workersJoined
  | returned
  deriving DecidableEq, Repr

/-- The event base is not freed. -/
def Phase.baseLive : Phase → Bool
  | serving | loopBroken | threadJoined => true
  | baseFreed | poolCancelled | workersJoined | returned => false

/-- Which steps of the server are possible: `do_accept` is called from the thread that calls `http_end`, the callbacks from
the thread that `http_end` joins, and the workers look at `cancelled`. -/
def Phase.allows : Phase → Action → Bool
  | serving, .accept _ => true
  | serving, .arrive _ _ | loopBroken, .arrive _ _ => true
  | serving, .read _ | loopBroken, .read _ => true
  | serving, .start _ | loopBroken, .start _ | threadJoined, .start _ | baseFreed, .start _ => true
  | workersJoined, .finish _ | returned, .finish _ => false
  | _, .finish _ => true
  | _, _ => false

/-- The server while it is shut down. -/
structure Shutdown where
  server : State
  phase : Phase := .serving
  -- what happened so far, which no step reads: the bufferevents that were freed behind their base, the jobs that `pool_end`
  -- has discarded, and the ends of jobs, each with the server before it and the worker
  late : List ℕ := []
  discarded : List Job := []
  ended : List (State × ℕ) := []
  deriving DecidableEq, Repr

/-- No worker has a job. -/
def State.Idle (s : State) : Prop := ∀ o ∈ s.workers.cells, o = none

instance (s : State) : Decidable s.Idle := List.decidableBAll _ s.workers.cells

/-- The next step of `http_end`. The jobs that are left in the queue are freed, what they hold is not. -/
def Shutdown.httpEnd (s : Shutdown) : Option Shutdown :=
  match s.phase with
  | .serving => some { s with phase := .loopBroken }
  | .loopBroken => some { s with phase := .threadJoined }
  | .threadJoined => some { s with phase := .baseFreed }
  | .baseFreed => some { s with phase := .poolCancelled }
  | .poolCancelled => if s.server.Idle then some { s with phase := .workersJoined } else none
  | .workersJoined =>
    some { s with phase := .returned, discarded := s.server.queue, server := { s.server with queue := [] } }
  | .returned => none

/-- The end of a job. -/
def Action.ends (a : Action) (s : State) : List (State × ℕ) :=
  match a with
  | .finish w => [(s, w)]
  | _ => []

/-- A step of the server, and the bufferevents that it frees too late. -/
def Shutdown.serverStep (s : Shutdown) (a : Action) : Option Shutdown :=
  if s.phase.allows a then
    (Server.step s.server a).map fun t =>
      { s with
        server := t
        late := s.late ++ if s.phase.baseLive then [] else t.freedBevs.drop s.server.freedBevs.length
        ended := s.ended ++ a.ends s.server }
  else none

inductive ShutdownAction
  | server (a : Action)
  | httpEnd
  deriving DecidableEq, Repr

def Shutdown.step (s : Shutdown) : ShutdownAction → Option Shutdown
  | .server a => s.serverStep a
  | .httpEnd => s.httpEnd

/-- No bufferevent was freed behind its base, and when `http_end` returns, what the discarded jobs held is freed. -/
def Shutdown.InOrder (s : Shutdown) : Prop :=
  s.late = [] ∧ (s.phase = .returned → ∀ j ∈ s.discarded, j.conn ∈ s.server.freedConns ∧ j.buffer ∈ s.server.freedBuffers)

/-- The job of a worker is one of the connection, and its request asks to close it. -/
def State.Closes (s : State) (w c : ℕ) : Prop := s.AsksClose w ∧ ∃ r ∈ s.runs w, r.job.conn = c

instance (s : State) (w c : ℕ) : Decidable (s.Closes w c) := by unfold State.Closes; infer_instance

/-- The method of a worker's request is known, and its connection points to the buffer. -/
def State.FreesBuffer (s : State) (w b : ℕ) : Prop :=
  ∃ r ∈ s.runs w, (∃ b' ∈ r.req.buffer, ∃ content ∈ s.buffers.get? b', Known (token (some SP) content)) ∧
    ∃ conn ∈ s.conns.get? r.job.conn, conn.request.buffer = some b

instance (s : State) (w b : ℕ) : Decidable (s.FreesBuffer w b) := by unfold State.FreesBuffer; infer_instance

/-- A job has ended that closed the connection of `j`, and one whose connection pointed to the buffer of `j`. -/
def Shutdown.Served (s : Shutdown) (j : Job) : Prop :=
  (∃ e ∈ s.ended, e.1.Closes e.2 j.conn) ∧ ∃ e ∈ s.ended, e.1.FreesBuffer e.2 j.buffer

instance (s : Shutdown) (j : Job) : Decidable (s.Served j) := by unfold Shutdown.Served; infer_instance

/-- **The steps that keep the shutdown in order.** No job closes its connection when the base is freed, and the jobs that are
in the queue when it is discarded have been served by jobs that ended before. -/
def Shutdown.Safe (s : Shutdown) : ShutdownAction → Prop
  | .server (.finish w) => s.phase.baseLive = true ∨ ¬ s.server.AsksClose w
  | .httpEnd => s.phase = .workersJoined → ∀ j ∈ s.server.queue, s.Served j
  | _ => True

instance (s : Shutdown) : DecidablePred s.Safe
  | .server (.finish w) => inferInstanceAs (Decidable (s.phase.baseLive = true ∨ ¬ s.server.AsksClose w))
  | .server (.accept _) => inferInstanceAs (Decidable True)
  | .server (.arrive _ _) => inferInstanceAs (Decidable True)
  | .server (.read _) => inferInstanceAs (Decidable True)
  | .server (.start _) => inferInstanceAs (Decidable True)
  | .httpEnd =>
    have : Decidable (∀ j ∈ s.server.queue, s.Served j) := List.decidableBAll _ s.server.queue
    inferInstanceAs (Decidable (s.phase = .workersJoined → _))

/-! ### One step -/

section Steps

/-- The request in the buffer asks to close the connection as the parse says. -/
lemma asksClose_iff {s : State} {w b : ℕ} {r : Running} {res : Option (Cursor × Locals)} {m : Mem}
    (hp : Parses s w r b res m) : s.AsksClose w ↔ ∃ x ∈ res, x.2.closing = true := by
  obtain ⟨hr, hb, content, hc, hparse⟩ := hp
  constructor
  · rintro ⟨r', hr', b', hb', content', hc', h⟩
    obtain rfl := Option.some.inj (hr.symm.trans hr')
    obtain rfl := Option.some.inj (hb.symm.trans hb')
    obtain rfl := Option.some.inj (hc.symm.trans hc')
    rw [hparse] at h
    cases res with
    | none => cases h
    | some x => exact ⟨x, rfl, h⟩
  · rintro ⟨x, hx, hclosing⟩
    obtain rfl : res = some x := hx
    refine ⟨r, hr, b, hb, content, hc, ?_⟩
    rw [hparse]
    exact hclosing

/-- Which bufferevents a step frees: none, unless a job closes its connection. -/
lemma freedBevs_step {s s' : State} {a : Action} (h : Step s a s') :
    s'.freedBevs.drop s.freedBevs.length = [] ↔ ∀ w, a = .finish w → ¬ s.AsksClose w := by
  cases h with
  | unknown hp =>
    refine iff_of_true (List.drop_length ..) fun w e => ?_
    cases e
    rw [asksClose_iff hp]
    simp
  | keep hp hconn hclosing =>
    refine iff_of_true (List.drop_length ..) fun w e => ?_
    cases e
    rw [asksClose_iff hp]
    simpa using hclosing
  | close hp hconn hclosing hbev =>
    refine iff_of_false ?_ fun hall => hall _ rfl ((asksClose_iff hp).2 ⟨_, rfl, hclosing⟩)
    simp [State.freeConn, State.freeBuffer, State.done, State.deref]
  | _ => exact iff_of_true (List.drop_length ..) fun w e => by cases e

lemma freesBuffer_iff {s : State} {w b x : ℕ} {r : Running} {res : Option (Cursor × Locals)} {m : Mem}
    (hf : RequestsFresh s) (hp : Parses s w r b res m) :
    s.FreesBuffer w x ↔ res.isSome = true ∧ ∃ conn ∈ s.conns.get? r.job.conn, conn.request.buffer = some x := by
  obtain ⟨hr, hb, content, hc, hparse⟩ := hp
  have hreq : r.req.method = HttpMethodTyp.unknown := congrArg HttpRequest.method (hf.running hr)
  rw [isSome_iff_known hreq hparse]
  constructor
  · rintro ⟨r', hr', ⟨b', hb', content', hc', hk⟩, hconn⟩
    obtain rfl := Option.some.inj (hr.symm.trans hr')
    obtain rfl := Option.some.inj (hb.symm.trans hb')
    obtain rfl := Option.some.inj (hc.symm.trans hc')
    exact ⟨hk, hconn⟩
  · rintro ⟨hk, hconn⟩
    exact ⟨r, hr, ⟨b, hb, content, hc, hk⟩, hconn⟩

/-- Which connections a step frees. -/
lemma mem_freedConns_step {s s' : State} {a : Action} (h : Step s a s') (c : ℕ) :
    c ∈ s'.freedConns ↔ c ∈ s.freedConns ∨ ∃ e ∈ a.ends s, e.1.Closes e.2 c := by
  cases h with
  | unknown hp =>
    refine ⟨Or.inl, fun h => h.resolve_right ?_⟩
    rintro ⟨e, he, hclose, -⟩
    obtain rfl := List.mem_singleton.1 he
    simpa using (asksClose_iff hp).1 hclose
  | keep hp hconn hclosing =>
    refine ⟨Or.inl, fun h => h.resolve_right ?_⟩
    rintro ⟨e, he, hclose, -⟩
    obtain rfl := List.mem_singleton.1 he
    have := (asksClose_iff hp).1 hclose
    simp [hclosing] at this
  | close hp hconn hclosing hbev =>
    have hasks := (asksClose_iff hp).2 ⟨_, rfl, hclosing⟩
    simp only [State.freeConn, State.freeBuffer, State.done, State.deref, List.mem_append, List.mem_singleton, Action.ends,
      exists_eq_left, State.Closes, hasks, true_and, hp.runs, Option.mem_def, Option.some.injEq, exists_eq_left']
    exact or_congr_right eq_comm
  | _ => simp [httpHandleConnection, State.enqueue, State.begin, State.deref, Action.ends]

/-- Which buffers a step frees. -/
lemma mem_freedBuffers_step {s s' : State} {a : Action} (hf : RequestsFresh s) (h : Step s a s') (b : ℕ) :
    b ∈ s'.freedBuffers ↔ b ∈ s.freedBuffers ∨ ∃ e ∈ a.ends s, e.1.FreesBuffer e.2 b := by
  have hpast : ∀ {w b' : ℕ} {r : Running} {cur : Cursor} {l : Locals} {m : Mem} {conn : HttpConnection},
      Parses s w r b' (some (cur, l)) m → s.conns.get? r.job.conn = some conn →
      (b ∈ s.freedBuffers ++ conn.request.buffer.toList ↔
        b ∈ s.freedBuffers ∨ ∃ e ∈ (Action.finish w).ends s, e.1.FreesBuffer e.2 b) := by
    intro w b' r cur l m conn hp hconn
    simp only [Action.ends, List.mem_singleton, exists_eq_left, freesBuffer_iff hf hp, hconn, List.mem_append,
      Option.mem_toList, Option.mem_def, Option.some.injEq, exists_eq_left', Option.isSome_some, true_and]
  cases h with
  | unknown hp =>
    refine ⟨Or.inl, fun h => h.resolve_right ?_⟩
    rintro ⟨e, he, hfree⟩
    obtain rfl := List.mem_singleton.1 he
    exact absurd ((freesBuffer_iff hf hp).1 hfree).1 (by simp)
  | keep hp hconn hclosing => exact hpast hp hconn
  | close hp hconn hclosing hbev => exact hpast hp hconn
  | _ => simp [httpHandleConnection, State.enqueue, State.begin, State.deref, Action.ends]

/-- What is freed was freed by the jobs that have ended. -/
structure Recorded (s : Shutdown) : Prop where
  fresh : RequestsFresh s.server
  conns : ∀ c, c ∈ s.server.freedConns ↔ ∃ e ∈ s.ended, e.1.Closes e.2 c
  buffers : ∀ b, b ∈ s.server.freedBuffers ↔ ∃ e ∈ s.ended, e.1.FreesBuffer e.2 b

variable {s s' : Shutdown} {a : ShutdownAction}

lemma recorded_start (n : ℕ) : Recorded { server := httpStart n } :=
  ⟨requests_fresh (show serve n [] = some _ from rfl), fun c => by simp [httpStart], fun b => by simp [httpStart]⟩

/-- A step of the server is one that the phase allows. -/
lemma serverStep_cases {b : Action} (h : s.serverStep b = some s') : s.phase.allows b = true ∧ ∃ t, Step s.server b t ∧
    s' = { s with
      server := t
      late := s.late ++ if s.phase.baseLive then [] else t.freedBevs.drop s.server.freedBevs.length
      ended := s.ended ++ b.ends s.server } := by
  have hallow : s.phase.allows b = true := by
    by_contra hne
    simp [Shutdown.serverStep, hne] at h
  rw [Shutdown.serverStep, if_pos hallow] at h
  obtain ⟨t, ht, rfl⟩ := Option.map_eq_some_iff.1 h
  exact ⟨hallow, t, step_iff.1 ht, rfl⟩

/-- **The record is kept.** -/
lemma Recorded.step (hi : Recorded s) (h : s.step a = some s') : Recorded s' := by
  cases a with
  | server b =>
    obtain ⟨-, t, ht, rfl⟩ := serverStep_cases h
    refine ⟨hi.fresh.step ht, fun c => ?_, fun x => ?_⟩
    · rw [mem_freedConns_step ht, hi.conns]
      simp [or_and_right, exists_or]
    · rw [mem_freedBuffers_step hi.fresh ht, hi.buffers]
      simp [or_and_right, exists_or]
  | httpEnd =>
    rw [Shutdown.step, Shutdown.httpEnd] at h
    cases hp : s.phase with
    | workersJoined =>
      rw [hp] at h
      cases h
      exact ⟨⟨hi.fresh.conns, hi.fresh.running⟩, hi.conns, hi.buffers⟩
    | poolCancelled =>
      simp only [hp] at h
      split_ifs at h
      cases h
      exact ⟨hi.fresh, hi.conns, hi.buffers⟩
    | returned => simp [hp] at h
    | _ =>
      rw [hp] at h
      cases h
      exact ⟨hi.fresh, hi.conns, hi.buffers⟩

/-- What a job holds is freed exactly if it has been served. -/
lemma Recorded.served_iff (hi : Recorded s) (j : Job) :
    s.Served j ↔ j.conn ∈ s.server.freedConns ∧ j.buffer ∈ s.server.freedBuffers := by
  rw [Shutdown.Served, hi.conns, hi.buffers]

lemma inOrder_serverStep {b : Action} (hi : s.InOrder) (h : s.serverStep b = some s') :
    s.Safe (.server b) ↔ s'.InOrder := by
  obtain ⟨hallow, t, ht, rfl⟩ := serverStep_cases h
  have hret : s.phase ≠ .returned := by
    intro e
    rw [e] at hallow
    cases b <;> cases hallow
  have hsafe : s.Safe (.server b) ↔ s.phase.baseLive = true ∨ ∀ w, b = .finish w → ¬ s.server.AsksClose w := by
    cases b <;> simp [Shutdown.Safe]
  rw [hsafe, ← freedBevs_step ht, Shutdown.InOrder, hi.1, List.nil_append]
  cases hbase : s.phase.baseLive with
  | true => simp [hret]
  | false => simp [hret]

lemma inOrder_httpEnd (hi : s.InOrder) (hrec : Recorded s) (h : s.httpEnd = some s') : s.Safe .httpEnd ↔ s'.InOrder := by
  unfold Shutdown.httpEnd at h
  cases hp : s.phase with
  | workersJoined =>
    rw [hp] at h
    cases h
    simp [Shutdown.Safe, Shutdown.InOrder, hp, hi.1, hrec.served_iff]
  | poolCancelled =>
    simp only [hp] at h
    split_ifs at h
    cases h
    simp [Shutdown.Safe, Shutdown.InOrder, hp, hi.1]
  | returned => simp [hp] at h
  | _ =>
    rw [hp] at h
    cases h
    simp [Shutdown.Safe, Shutdown.InOrder, hp, hi.1]

/-- **One step** keeps the shutdown in order exactly if it is safe. -/
lemma inOrder_step (hi : s.InOrder) (hrec : Recorded s) (h : s.step a = some s') : s.Safe a ↔ s'.InOrder := by
  cases a with
  | server b => exact inOrder_serverStep hi h
  | httpEnd => exact inOrder_httpEnd hi hrec h

end Steps

/-! ### Whole runs -/

/-- **When a shutdown is in order.** It is so in all states of a run exactly if all steps of the run are safe. -/
theorem inOrder_iff {n : ℕ} {acts : List ShutdownAction} {s : Shutdown}
    (h : Transition.run Shutdown.step { server := httpStart n } acts = some s) :
    (∀ acts' s', acts' <+: acts → Transition.run Shutdown.step { server := httpStart n } acts' = some s' → s'.InOrder) ↔
      Transition.Guarded Shutdown.step Shutdown.Safe { server := httpStart n } acts := by
  have hrec : ∀ acts' s', Transition.run Shutdown.step { server := httpStart n } acts' = some s' → Recorded s' :=
    fun acts' s' => Transition.invariant_of_run (fun hi hs => hi.step hs) (recorded_start n)
  have hguard := Transition.guarded_iff (I := fun s => Recorded s ∧ s.InOrder) (P := fun _ _ => True)
    (fun {s a s'} hi _ hs => (inOrder_step hi.2 hi.1 hs).trans (and_iff_right (hi.1.step hs)).symm)
    ⟨recorded_start n, rfl, fun e => by cases e⟩ (Transition.guarded_of_forall (fun _ _ => trivial) _ _) h
  rw [hguard]
  exact ⟨fun hall acts' s' hpre hr => ⟨hrec acts' s' hr, hall acts' s' hpre hr⟩,
    fun hall acts' s' hpre hr => (hall acts' s' hpre hr).2⟩

/-- Two reads of a request that closes its connection. The first job frees the connection and the buffer of the second one,
which is discarded. -/
theorem inOrder_of_closed : ∃ s, Transition.run Shutdown.step { server := httpStart 1 }
    [.server (.accept 3), .server (.arrive 0 (bytes "GET / HTTP/1.1\r\nConnection: close\r\n\r\n")), .server (.read 0),
      .server (.read 0), .server (.start 0), .httpEnd, .server (.finish 0), .httpEnd, .httpEnd, .httpEnd, .httpEnd,
      .httpEnd] = some s ∧ s.discarded = [⟨0, 1⟩] ∧ s.InOrder := by
  have h : Transition.run Shutdown.step { server := httpStart 1 }
    [.server (.accept 3), .server (.arrive 0 (bytes "GET / HTTP/1.1\r\nConnection: close\r\n\r\n")), .server (.read 0),
      .server (.read 0), .server (.start 0), .httpEnd, .server (.finish 0), .httpEnd, .httpEnd, .httpEnd, .httpEnd,
      .httpEnd] = some _ := rfl
  exact ⟨_, h, rfl, (inOrder_iff h).2 (by decide +kernel) _ _ List.prefix_rfl h⟩

/-- A job that is still queued when the pool is ended: nobody frees its connection. -/
theorem not_inOrder : ¬ ∀ (n : ℕ) (acts : List ShutdownAction) (s : Shutdown),
    Transition.run Shutdown.step { server := httpStart n } acts = some s → s.InOrder := by
  intro h
  have hs := h 1 [.server (.accept 3), .server (.arrive 0 (bytes "GET / HTTP/1.1\r\n\r\n")), .server (.read 0), .httpEnd,
    .httpEnd, .httpEnd, .httpEnd, .httpEnd, .httpEnd] _ rfl
  exact absurd (hs.2 rfl ⟨0, 0⟩ (by decide +kernel)).1 (by decide +kernel)

end Wrensong.Server
