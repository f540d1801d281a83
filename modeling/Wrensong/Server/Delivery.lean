import Wrensong.Server.Steps

/-!
# Which bytes the workers are handed

`_http_read` copies the whole input evbuffer and `evbuffer_copyout` removes nothing from it. So the buffer of each
callback holds everything that has arrived on the connection so far (`received_eq`, `delivered_step`), and a byte is
handed over once for each callback after its arrival. `delivered_iff` draws the line: a run hands every byte over
exactly once when nothing has arrived before any callback but the last.
-/

namespace Wrensong.Server

open Wrensong.Lib Wrensong.Lib.Bytes Wrensong.Http

/-- The bytes that arrive on a connection. -/
def received (c : ℕ) (acts : List Action) : List UInt8 :=
  acts.flatMap fun
    | .arrive c' data => if c' = c then data else []
    | _ => []

/-- The actions up to the last read callback of a connection. -/
def uptoLastRead (c : ℕ) (acts : List Action) : List Action :=
  (acts.reverse.dropWhile fun a => a ≠ .read c).reverse

/-- The contents of the buffers allocated for a connection, one behind the other. -/
def State.delivered (s : State) (c : ℕ) : List UInt8 := (s.handed.filter fun e => e.1 = c).flatMap fun e => e.2

/-! ### One action more -/

lemma received_concat (c : ℕ) (acts : List Action) (a : Action) :
    received c (acts ++ [a]) = received c acts ++ received c [a] := by
  simp [received]

lemma uptoLastRead_read (c : ℕ) (acts : List Action) : uptoLastRead c (acts ++ [.read c]) = acts ++ [.read c] := by
  simp [uptoLastRead]

lemma uptoLastRead_other {c : ℕ} {a : Action} (ha : a ≠ .read c) (acts : List Action) :
    uptoLastRead c (acts ++ [a]) = uptoLastRead c acts := by
  simp [uptoLastRead, ha]

/-! ### One step -/

section StepFacts

variable {s s' : State} {a : Action}

/-- **An arrival goes to the end of its input evbuffer**, and no other step touches an evbuffer. -/
lemma input_step (h : Step s a s') (c : ℕ) :
    (s'.inputs.get? c).getD [] = (s.inputs.get? c).getD [] ++ received c [a] := by
  cases h with
  | accept fd =>
    simp only [httpHandleConnection, Heap.get?_alloc, received, List.flatMap_cons, List.flatMap_nil, List.append_nil]
    split_ifs with hc
    · rw [hc, Heap.get?_next]
      rfl
    · rfl
  | @arrive c' data input hin hlive =>
    simp only [Heap.get?_put, received, List.flatMap_cons, List.flatMap_nil, List.append_nil]
    split_ifs with hc
    · subst hc
      simp [hin]
    · simp
  | _ => simp [received, State.enqueue, State.begin, State.done, State.deref, State.freeBuffer, State.freeConn]

/-- **A read callback hands over the whole input evbuffer**, and no other step hands over anything. -/
lemma delivered_step (h : Step s a s') (c : ℕ) :
    s'.delivered c = s.delivered c ++ if a = .read c then (s.inputs.get? c).getD [] else [] := by
  cases h with
  | readEmpty hin hconn hlive =>
    split_ifs with hc
    · obtain rfl := Action.read.inj hc
      simp [hin]
    · simp
  | read hin hconn hlive hne =>
    simp only [State.delivered, State.enqueue, State.deref, List.filter_append, List.flatMap_append]
    split_ifs with hc
    · obtain rfl := Action.read.inj hc
      simp [hin]
    · have hne : ∀ {c' : ℕ}, Action.read c' ≠ .read c → ¬ c' = c := fun hne e => hne (by rw [e])
      simp [hne hc]
  | _ => simp [State.delivered, httpHandleConnection, State.begin, State.done, State.deref, State.freeBuffer,
      State.freeConn]

end StepFacts

/-! ### Whole runs -/

/-- **The input evbuffer holds all that has arrived.** -/
theorem received_eq {n : ℕ} {acts : List Action} {s : State} (h : serve n acts = some s) (c : ℕ) :
    (s.inputs.get? c).getD [] = received c acts := by
  refine Transition.history_of_run (R := fun as s => (s.inputs.get? c).getD [] = received c as) rfl ?_ h
  intro as s a s' hrel hstep
  rw [input_step (step_iff.1 hstep), hrel, ← received_concat]

/-- Nothing is handed over exactly when nothing has arrived before any callback. -/
lemma delivered_nil_iff {n : ℕ} {acts : List Action} {s : State} (h : serve n acts = some s) (c : ℕ) :
    s.delivered c = [] ↔ ∀ pre post, acts = pre ++ .read c :: post → received c pre = [] := by
  have hrel : serve n acts = some s ∧ (s.delivered c = [] ↔ ∀ pre post, acts = pre ++ .read c :: post →
      received c pre = []) := by
    refine Transition.history_of_run (R := fun as s => serve n as = some s ∧ (s.delivered c = [] ↔
      ∀ pre post, as = pre ++ .read c :: post → received c pre = [])) ⟨rfl, by simp [State.delivered, httpStart]⟩ ?_ h
    rintro as s a s' ⟨hrun, hrel⟩ hstep
    refine ⟨Transition.run_concat_iff.2 ⟨s, hrun, hstep⟩, ?_⟩
    rw [delivered_step (step_iff.1 hstep), List.append_eq_nil_iff, hrel, received_eq hrun]
    simp only [Transition.split_concat]
    constructor
    · rintro ⟨hold, hnew⟩ pre post (⟨-, ha, rfl⟩ | ⟨post', -, hpost⟩)
      · rwa [if_pos ha] at hnew
      · exact hold pre post' hpost
    · intro hall
      refine ⟨fun pre post hpost => hall pre (post ++ [a]) (Or.inr ⟨post, rfl, hpost⟩), ?_⟩
      split_ifs with ha
      · exact hall as [] (Or.inl ⟨rfl, ha, rfl⟩)
      · rfl
  exact hrel.2

/-- **When every byte is handed over exactly once.** In a run of the server, the contents of a connection's buffers, in
the order of the callbacks, are the bytes that arrived on it up to the last callback exactly when no byte had arrived
before any of the callbacks but the last. -/
theorem delivered_iff {n : ℕ} {acts : List Action} {s : State} (h : serve n acts = some s) (c : ℕ) :
    s.delivered c = received c (uptoLastRead c acts) ↔
      ∀ pre post, acts = pre ++ .read c :: post → .read c ∈ post → received c pre = [] := by
  have hrel : serve n acts = some s ∧ (s.delivered c = received c (uptoLastRead c acts) ↔
      ∀ pre post, acts = pre ++ .read c :: post → .read c ∈ post → received c pre = []) := by
    refine Transition.history_of_run (R := fun as s => serve n as = some s ∧
      (s.delivered c = received c (uptoLastRead c as) ↔
        ∀ pre post, as = pre ++ .read c :: post → .read c ∈ post → received c pre = []))
      ⟨rfl, by simp [State.delivered, httpStart, uptoLastRead, received]⟩ ?_ h
    rintro as s a s' ⟨hrun, hrel⟩ hstep
    refine ⟨Transition.run_concat_iff.2 ⟨s, hrun, hstep⟩, ?_⟩
    rw [delivered_step (step_iff.1 hstep), received_eq hrun]
    simp only [Transition.split_concat]
    by_cases ha : a = .read c
    · -- the new callback hands over everything, so there must be nothing before it
      subst ha
      rw [if_pos rfl, uptoLastRead_read, received_concat, show received c [.read c] = [] from rfl, List.append_nil,
        List.append_left_eq_self, delivered_nil_iff hrun]
      constructor
      · rintro hnil pre post (⟨rfl, -, -⟩ | ⟨post', -, hpost⟩) hmem
        · simp at hmem
        · exact hnil pre post' hpost
      · intro hall pre post hpost
        exact hall pre (post ++ [.read c]) (Or.inr ⟨post, rfl, hpost⟩) (by simp)
    · rw [if_neg ha, List.append_nil, uptoLastRead_other ha, hrel]
      constructor
      · rintro hold pre post (⟨-, hb, -⟩ | ⟨post', rfl, hpost⟩) hmem
        · exact absurd hb ha
        · rw [List.mem_append, List.mem_singleton] at hmem
          exact hold pre post' hpost (hmem.resolve_right fun e => ha e.symm)
      · intro hall pre post hpost hmem
        exact hall pre (post ++ [a]) (Or.inr ⟨post, rfl, hpost⟩) (List.mem_append_left _ hmem)
  exact hrel.2

/-- Two callbacks, the first before anything has arrived. -/
theorem delivered_iff_once :
    ∃ s, serve 1 [.accept 3, .read 0, .arrive 0 [71], .read 0] = some s ∧
      (s.delivered 0 = received 0 (uptoLastRead 0 [.accept 3, .read 0, .arrive 0 [71], .read 0]) ↔
        ∀ pre post, [.accept 3, .read 0, .arrive 0 [71], .read 0] = pre ++ Action.read 0 :: post →
          .read 0 ∈ post → received 0 pre = []) :=
  ⟨_, rfl, delivered_iff rfl 0⟩

/-- The second of two callbacks hands the first arrival over again. -/
theorem not_delivered_once :
    ¬ ∀ (n : ℕ) (acts : List Action) (s : State), serve n acts = some s →
      ∀ c, s.delivered c = received c (uptoLastRead c acts) := by
  intro h
  exact absurd (h 1 [.accept 3, .arrive 0 [71], .read 0, .arrive 0 [69], .read 0] _ rfl 0) (by decide)

end Wrensong.Server
