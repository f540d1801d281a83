import Wrensong.Server.Ownership
import Wrensong.Server.Release

/-!
# Descriptors

Around the server stand the kernel, which gives out descriptors, and libevent, which closes a descriptor with the
bufferevent that it was given to. `http_handle_connection` gives its bufferevents no descriptor (-1), and `_http_event`
does nothing about an end of file or an error.

So no descriptor is ever closed (`opened_eq`). Descriptors, connections and bufferevents agree as long as there are no
descriptors, and no longer (`fdsAgree_iff`).
-/

namespace Wrensong.Server

open Wrensong.Lib Wrensong.Lib.Bytes Wrensong.Http

/-- The server with the descriptors: those that are open, the one each bufferevent was given, and the connections on which
an end of file or an error was signalled. -/
structure Descriptors where
  server : State
  opened : List ℕ := []
  given : Heap Int := {}
  signalled : List ℕ := []
  deriving DecidableEq, Repr

abbrev fdSetsize : Int := 1024

/-- `http_handle_connection`: the connection gets the descriptor, the bufferevent gets -1. -/
def Descriptors.handleConnection (d : Descriptors) (fd : ℕ) : Descriptors :=
  { d with server := httpHandleConnection d.server fd, opened := d.opened ++ [fd], given := d.given.alloc (-1) }

/-- `do_accept`, where `accept` returns `fd`. The kernel does not return a descriptor that is open. -/
def Descriptors.doAccept (d : Descriptors) (fd : Int) : Option Descriptors :=
  if fd < 0 then some d
  else if fd.toNat ∈ d.opened then none
  else if fd > fdSetsize then some d
  else some (d.handleConnection fd.toNat)

/-- `_http_event`, for an end of file or an error on a bufferevent that is not freed. -/
def Descriptors.httpEvent (d : Descriptors) (c : ℕ) : Option Descriptors :=
  if (d.server.inputs.get? c).isSome ∧ c ∉ d.server.freedBevs then some { d with signalled := d.signalled ++ [c] } else none

/-- What `bufferevent_free` leaves open, with `BEV_OPT_CLOSE_ON_FREE`. -/
def Descriptors.closeGiven (d : Descriptors) (opened : List ℕ) (bev : ℕ) : List ℕ :=
  match d.given.get? bev with
  | some fd => if 0 ≤ fd then opened.erase fd.toNat else opened
  | none => opened

/-- Any other step of the server. -/
def Descriptors.serverStep (d : Descriptors) (a : Action) : Option Descriptors :=
  (step d.server a).map fun s =>
    { d with server := s, opened := (s.freedBevs.drop d.server.freedBevs.length).foldl d.closeGiven d.opened }

/-- The steps of the server, and those of the kernel and of libevent. -/
inductive FdAction
  | accept (fd : Int)
  | event (c : ℕ)
  | arrive (c : ℕ) (data : List UInt8)
  | read (c : ℕ)
  | start (w : ℕ)
  | finish (w : ℕ)
  deriving DecidableEq, Repr

def Descriptors.step (d : Descriptors) : FdAction → Option Descriptors
  | .accept fd => d.doAccept fd
  | .event c => d.httpEvent c
  | .arrive c data => d.serverStep (.arrive c data)
  | .read c => d.serverStep (.read c)
  | .start w => d.serverStep (.start w)
  | .finish w => d.serverStep (.finish w)

/-- The connection has the descriptor. -/
def Descriptors.Has (d : Descriptors) (c fd : ℕ) : Prop :=
  c ∈ d.server.connections ∧ ∃ conn ∈ d.server.conns.get? c, conn.fd = fd

/-- The open descriptors are those of the connections in the table, each belongs to one connection and to its bufferevent,
and no connection is in the table that was signalled and has no job. -/
structure FdsAgree (d : Descriptors) : Prop where
  keys : ∀ fd, fd ∈ d.opened ↔ ∃ c, d.Has c fd
  unique : ∀ fd ∈ d.opened, ∃! c, d.Has c fd
  given : ∀ fd ∈ d.opened, ∀ c, d.Has c fd → d.given.get? c = some (fd : Int)
  signalled : ∀ c ∈ d.signalled, ¬ d.server.Busy c → c ∉ d.server.connections

/-- The descriptor that an action hands to `http_handle_connection`. -/
def FdAction.handed : FdAction → Option ℕ
  | .accept fd => if 0 ≤ fd ∧ fd ≤ fdSetsize then some fd.toNat else none
  | _ => none

/-! ### What a run leaves open -/

/-- The state behind the actions `acts`: the descriptors handed over are open, and no bufferevent has one. -/
structure Leaks (acts : List FdAction) (d : Descriptors) : Prop where
  settled : Settled d.server
  opened_eq : d.opened = acts.filterMap FdAction.handed
  next_eq : d.server.conns.next = (acts.filterMap FdAction.handed).length
  given_eq : ∀ {c fd}, d.given.get? c = some fd → fd = -1

section Steps

variable {acts : List FdAction} {d d' : Descriptors}

/-- No step but `accept` allocates a connection. -/
lemma next_of_step {s s' : State} {a : Action} (ha : ∀ fd, a ≠ .accept fd) (h : Step s a s') :
    s'.conns.next = s.conns.next := by
  cases h with
  | accept fd => exact absurd rfl (ha fd)
  | read hin hconn hlive hne => exact Heap.next_put _
  | _ => rfl

lemma closeGiven_eq (hg : ∀ {c fd}, d.given.get? c = some fd → fd = -1) (bevs opened : List ℕ) :
    bevs.foldl d.closeGiven opened = opened := by
  induction bevs with
  | nil => rfl
  | cons bev bevs ih =>
    have hclose : d.closeGiven opened bev = opened := by
      unfold Descriptors.closeGiven
      cases hfd : d.given.get? bev with
      | none => rfl
      | some fd =>
        rw [hg hfd]
        rfl
    rw [List.foldl_cons, hclose, ih]

/-- A step of the server leaves the descriptors alone. -/
lemma Leaks.serverStep (hi : Leaks acts d) {b : FdAction} (hb : b.handed = none) {a : Action} (ha : ∀ fd, a ≠ .accept fd)
    (h : d.serverStep a = some d') : Leaks (acts ++ [b]) d' := by
  obtain ⟨s, hs, rfl⟩ := Option.map_eq_some_iff.1 h
  have hstep := step_iff.1 hs
  have hacts : (acts ++ [b]).filterMap FdAction.handed = acts.filterMap FdAction.handed := by simp [hb]
  refine ⟨hi.settled.step hstep, ?_, ?_, hi.given_eq⟩
  · rw [hacts, closeGiven_eq hi.given_eq]
    exact hi.opened_eq
  · rw [hacts, next_of_step ha hstep]
    exact hi.next_eq

/-- An accept that hands nothing over. -/
lemma Leaks.idle (hi : Leaks acts d) {b : FdAction} (hb : b.handed = none) (signalled : List ℕ) :
    Leaks (acts ++ [b]) { d with signalled := signalled } := by
  have hacts : (acts ++ [b]).filterMap FdAction.handed = acts.filterMap FdAction.handed := by simp [hb]
  exact ⟨hi.settled, hacts ▸ hi.opened_eq, hacts ▸ hi.next_eq, hi.given_eq⟩

lemma Leaks.handleConnection (hi : Leaks acts d) {b : FdAction} {fd : ℕ} (hb : b.handed = some fd) :
    Leaks (acts ++ [b]) (d.handleConnection fd) := by
  have hacts : (acts ++ [b]).filterMap FdAction.handed = acts.filterMap FdAction.handed ++ [fd] := by simp [hb]
  refine ⟨hi.settled.accept fd, ?_, ?_, ?_⟩
  · rw [hacts, ← hi.opened_eq]
    rfl
  · rw [hacts, List.length_append, ← hi.next_eq]
    exact Heap.next_alloc _
  · intro c fd' hfd
    rcases Heap.get?_alloc_cases hfd with ⟨-, rfl⟩ | hfd
    · rfl
    · exact hi.given_eq hfd

/-- **One action.** -/
lemma Leaks.step (hi : Leaks acts d) {b : FdAction} (h : d.step b = some d') : Leaks (acts ++ [b]) d' := by
  cases b with
  | accept fd =>
    simp only [Descriptors.step, Descriptors.doAccept] at h
    split_ifs at h with hneg hopen hbig
    · cases h
      exact hi.idle (by simp only [FdAction.handed]; rw [if_neg]; omega) d.signalled
    · cases h
      exact hi.idle (by simp only [FdAction.handed]; rw [if_neg]; omega) d.signalled
    · cases h
      exact hi.handleConnection (by simp only [FdAction.handed]; rw [if_pos]; omega)
  | event c =>
    simp only [Descriptors.step, Descriptors.httpEvent] at h
    split_ifs at h
    cases h
    exact hi.idle rfl _
  | arrive c data => exact hi.serverStep rfl (fun _ => Action.noConfusion) h
  | read c => exact hi.serverStep rfl (fun _ => Action.noConfusion) h
  | start w => exact hi.serverStep rfl (fun _ => Action.noConfusion) h
  | finish w => exact hi.serverStep rfl (fun _ => Action.noConfusion) h

end Steps

/-! ### Whole runs -/

section Runs

variable {n : ℕ} {acts : List FdAction} {d : Descriptors}

lemma leaks_of_run (h : Transition.run Descriptors.step { server := httpStart n } acts = some d) : Leaks acts d := by
  have hstart : Leaks [] { server := httpStart n } := by
    refine ⟨settled_httpStart n, rfl, rfl, ?_⟩
    intro c fd hfd
    simp [Heap.get?] at hfd
  exact Transition.history_of_run hstart (fun hi hs => hi.step hs) h

/-- **No descriptor is ever closed** that was handed to a connection. -/
theorem opened_eq (h : Transition.run Descriptors.step { server := httpStart n } acts = some d) :
    d.opened = acts.filterMap FdAction.handed := (leaks_of_run h).opened_eq

/-- **When descriptors and the table agree**: no descriptor was handed to a connection so far. -/
theorem fdsAgree_iff (h : Transition.run Descriptors.step { server := httpStart n } acts = some d) :
    FdsAgree d ↔ ∀ a ∈ acts, a.handed = none := by
  have hi := leaks_of_run h
  have hhanded : (∀ a ∈ acts, a.handed = none) ↔ d.opened = [] := by
    rw [hi.opened_eq, List.filterMap_eq_nil_iff]
  rw [hhanded]
  constructor
  · intro ha
    by_contra hne
    obtain ⟨fd, opened, ho⟩ := List.exists_cons_of_ne_nil hne
    have hfd : fd ∈ d.opened := by rw [ho]; exact List.mem_cons_self
    obtain ⟨c, hc⟩ := (ha.keys fd).1 hfd
    have := hi.given_eq (ha.given fd hfd c hc)
    omega
  · intro hnil
    have hnext : d.server.conns.next = 0 := by rw [hi.next_eq, ← hi.opened_eq, hnil]; rfl
    have hempty : ∀ c, c ∉ d.server.connections := by
      intro c hc
      have := ((hi.settled.table c).1 hc).1
      omega
    refine ⟨fun fd => ?_, ?_, ?_, fun c _ _ => hempty c⟩
    · rw [hnil]
      exact iff_of_false List.not_mem_nil fun ⟨c, hc⟩ => hempty c hc.1
    · simp [hnil]
    · simp [hnil]

end Runs

/-- An accept that fails, and one whose descriptor is closed again. -/
theorem fdsAgree_of_refused :
    ∃ d, Transition.run Descriptors.step { server := httpStart 1 } [.accept (-1), .accept 2000] = some d ∧ FdsAgree d :=
  ⟨_, rfl, (fdsAgree_iff (show Transition.run Descriptors.step { server := httpStart 1 } [.accept (-1), .accept 2000] =
    some _ from rfl)).2 (by decide)⟩

/-- A connection whose client goes away: it stays in the table, and its descriptor stays open. -/
theorem not_fdsAgree : ¬ ∀ (n : ℕ) (acts : List FdAction) (d : Descriptors),
    Transition.run Descriptors.step { server := httpStart n } acts = some d → FdsAgree d := by
  intro h
  have hd := h 1 [.accept 3, .event 0] _ rfl
  exact hd.signalled 0 (by decide) (by decide) (by decide)

end Wrensong.Server
