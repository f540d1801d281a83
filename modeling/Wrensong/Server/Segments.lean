import Wrensong.Server.Channel

/-!
# How a stream is cut into arrivals

A stream of requests arrives in pieces. Each piece is read when it arrives, and a worker handles each read later
(`Schedule`). `ParsedInOrder` asks that the workers parse the requests of the stream, one by one.

The buffer of each read holds the stream from its start, since nothing is drained from the evbuffer, and there is one job
for each piece and not for each request. `parsedInOrder_iff` says for which cuts and schedules the parses are right all
the same. When the methods are unknown nothing is parsed and nothing is freed. Otherwise each piece has to be handled
before the next one arrives (`InTurn`): a second read replaces the buffer, and two jobs then free it (`starved`).
-/

namespace Wrensong.Server

open Wrensong.Lib Wrensong.Lib.Bytes Wrensong.Http

/-! ### Schedules -/

/-- **The schedules with `n` workers**: no arrival is empty, each job runs some time after its arrival, and all have run
in the end. The number is that of the jobs waiting. -/
def Schedule (n : ℕ) : ℕ → List Event → Prop
  | waiting, [] => waiting = 0
  | waiting, .recv data :: evs => data ≠ [] ∧ Schedule n (waiting + 1) evs
  | 0, .handle _ :: _ => False
  | waiting + 1, .handle w :: evs => w < n ∧ Schedule n waiting evs

instance Schedule.decidable (n : ℕ) : ∀ (waiting : ℕ) (evs : List Event), Decidable (Schedule n waiting evs)
  | waiting, [] => inferInstanceAs (Decidable (waiting = 0))
  | waiting, .recv data :: evs =>
    have : Decidable (Schedule n (waiting + 1) evs) := Schedule.decidable n _ evs
    inferInstanceAs (Decidable (data ≠ [] ∧ _))
  | 0, .handle _ :: _ => inferInstanceAs (Decidable False)
  | waiting + 1, .handle w :: evs =>
    have : Decidable (Schedule n waiting evs) := Schedule.decidable n _ evs
    inferInstanceAs (Decidable (w < n ∧ _))

/-- The bytes of the stream. -/
def stream (evs : List Event) : List UInt8 := evs.flatMap Event.data

/-- The number of arrivals. -/
def arrivals : List Event → ℕ
  | [] => 0
  | .recv _ :: evs => arrivals evs + 1
  | .handle _ :: evs => arrivals evs

/-- The number of jobs that are run. -/
def handles : List Event → ℕ
  | [] => 0
  | .recv _ :: evs => handles evs
  | .handle _ :: evs => handles evs + 1

/-- **The requests are parsed in order.** The server gets through the schedule without a fault and follows no pointer to
freed memory, and the parses are those of the requests, one for each, in order. -/
def ParsedInOrder (n fd : ℕ) (qs : List Request) (evs : List Event) : Prop :=
  ∃ s, serve n (.accept fd :: evs.flatMap Event.actions) = some s ∧ s.dangling = [] ∧ s.stale = [] ∧
    s.parsed = qs.map fun q => (0, q.fields)

/-! ### The condition -/

/-- **One after the other.** Each arrival is handled before the next one, there is one for each request, and what has
arrived by then, as the beginning of the request `q₀`, shows the fields of that arrival's request. No request but the last
one closes the connection. -/
def InTurn (q₀ : Request) : ℕ → List Event → List Request → Prop
  | _, [], [] => True
  | k, .recv data :: .handle _ :: evs, q :: qs =>
    (∃ f, q.fields = some f ∧ q₀.Shows (k + data.length) f ∧ (qs ≠ [] → f.closing = false)) ∧
      InTurn q₀ (k + data.length) evs qs
  | _, _, _ => False

/-- No job finds a known method at the start of what has been received. -/
def Unnamed : List UInt8 → List Event → Prop
  | _, [] => True
  | received, .recv data :: evs => Unnamed (received ++ data) evs
  | received, .handle _ :: evs => ¬ Known (token (some SP) received) ∧ Unnamed received evs

/-- The schedules on which the requests are parsed in order. -/
def Aligned : List Request → List Event → Prop
  | [], _ => True
  | q :: qs, evs =>
    if Known q.method then InTurn q 0 evs (q :: qs)
    else arrivals evs = qs.length + 1 ∧ (∀ q' ∈ q :: qs, ¬ Known q'.method) ∧ Unnamed [] evs

lemma Schedule.handles_eq {n p : ℕ} {evs : List Event} (h : Schedule n p evs) : handles evs = arrivals evs + p := by
  induction evs generalizing p with
  | nil =>
    obtain rfl : p = 0 := h
    rfl
  | cons e evs ih =>
    cases e with
    | recv data =>
      have := ih h.2
      simp only [handles, arrivals]
      omega
    | handle w =>
      cases p with
      | zero => exact absurd h id
      | succ p =>
        have := ih h.2
        simp only [handles, arrivals]
        omega

lemma Schedule.recv_ne {n p : ℕ} {evs : List Event} (h : Schedule n p evs) {data : List UInt8}
    (hd : .recv data ∈ evs) : data ≠ [] := by
  induction evs generalizing p with
  | nil => simp at hd
  | cons e evs ih =>
    cases e with
    | recv data' =>
      rcases List.mem_cons.1 hd with e | hd
      · cases e
        exact h.1
      · exact ih h.2 hd
    | handle w =>
      cases p with
      | zero => exact absurd h id
      | succ p => exact ih h.2 ((List.mem_cons.1 hd).resolve_left (by simp))

/-! ### Runs of a channel -/

/-- From the channel `ch` on, the parses are those of `qs`. -/
def Parsed (n : ℕ) (ch : Channel) (evs : List Event) (qs : List Request) : Prop :=
  ∃ ch', Transition.run (Channel.step n) ch evs = some ch' ∧ ch'.undefined = false ∧
    ch'.parsed = ch.parsed ++ qs.map Request.fields

section Parsed

variable {n w : ℕ} {ch ch' : Channel} {data : List UInt8} {evs : List Event} {qs : List Request}

/-- What a step adds to the parses, and that nothing makes up for an undefined step. -/
lemma Channel.step_mono {e : Event} (h : ch.step n e = some ch') :
    (∃ l, ch'.parsed = ch.parsed ++ l) ∧ (ch'.undefined = false → ch.undefined = false) := by
  cases e with
  | recv data =>
    simp only [Channel.step] at h
    split_ifs at h
    cases h
    exact ⟨⟨[], by simp [Channel.recv]⟩, id⟩
  | handle w =>
    simp only [Channel.step] at h
    split_ifs at h
    obtain ⟨r, -, rfl⟩ := Option.map_eq_some_iff.1 h
    refine ⟨⟨[r], rfl⟩, ?_⟩
    simp only [Channel.handled, Bool.or_eq_false_iff]
    exact And.left

lemma run_mono (h : Transition.run (Channel.step n) ch evs = some ch') :
    (∃ l, ch'.parsed = ch.parsed ++ l) ∧ (ch'.undefined = false → ch.undefined = false) := by
  refine Transition.invariant_of_run (I := fun c => (∃ l, c.parsed = ch.parsed ++ l) ∧
    (c.undefined = false → ch.undefined = false)) ?_ ⟨⟨[], by simp⟩, id⟩ h
  rintro c e c' ⟨⟨l, hl⟩, hu⟩ hstep
  obtain ⟨⟨l', hl'⟩, hu'⟩ := Channel.step_mono hstep
  exact ⟨⟨l ++ l', by rw [hl', hl, List.append_assoc]⟩, fun h => hu (hu' h)⟩

lemma Parsed.defined (h : Parsed n ch evs qs) : ch.undefined = false := by
  obtain ⟨ch', hrun, hu, -⟩ := h
  exact (run_mono hrun).2 hu

lemma parsed_nil : Parsed n ch [] qs ↔ ch.undefined = false ∧ qs = [] := by
  simp [Parsed]

lemma parsed_recv : Parsed n ch (.recv data :: evs) qs ↔ ch.closed = false ∧ Parsed n (ch.recv data) evs qs := by
  unfold Parsed
  cases hcl : ch.closed with
  | false =>
    have hstep : ch.step n (.recv data) = some (ch.recv data) := by simp [Channel.step, hcl]
    rw [Transition.run_cons hstep]
    simp [Channel.recv]
  | true => simp [Transition.run, Channel.step, hcl]

/-- What the parse of the job that runs next ends with. -/
def Channel.result (ch : Channel) : Option (Option Fields) := outcome (parseRequest ch.request { buf := ch.content })

/-- The channel behind a job that is right about `q`. -/
def Channel.after (ch : Channel) (q : Request) : Channel :=
  ch.handled q.fields (parseRequest ch.request { buf := ch.content }).2.buf

/-- **A job parses the next request**, or it does not. -/
lemma parsed_handle : Parsed n ch (.handle w :: evs) qs ↔ (w < n ∧ 0 < ch.waiting) ∧
    ∃ q qs', qs = q :: qs' ∧ ch.result = some q.fields ∧ Parsed n (ch.after q) evs qs' := by
  constructor
  · rintro ⟨ch', hrun, hu, hp⟩
    obtain ⟨ch1, hstep, hrun⟩ := Transition.run_cons_iff.1 hrun
    simp only [Channel.step] at hstep
    split_ifs at hstep with hok
    obtain ⟨r, hr, rfl⟩ := Option.map_eq_some_iff.1 hstep
    obtain ⟨⟨l, hl⟩, -⟩ := run_mono hrun
    have happ : ch.parsed ++ qs.map Request.fields = ch.parsed ++ (r :: l) := by
      rw [← hp, hl]
      simp [Channel.handled]
    have hlist : qs.map Request.fields = r :: l := List.append_cancel_left happ
    obtain ⟨q, qs', rfl, rfl, rfl⟩ := List.map_eq_cons_iff.1 hlist
    exact ⟨hok, q, qs', rfl, hr, ch', hrun, hu, hl⟩
  · rintro ⟨hok, q, qs', rfl, hr, ch', hrun, hu, hp⟩
    have hstep : ch.step n (.handle w) = some (ch.after q) := by
      have hr' : outcome (parseRequest ch.request { buf := ch.content }) = some q.fields := hr
      simp [Channel.step, hok, hr', Channel.after]
    refine ⟨ch', ?_, hu, ?_⟩
    · rw [Transition.run_cons hstep]
      exact hrun
    · rw [hp]
      simp [Channel.after, Channel.handled]

end Parsed

/-! ### A first request with a known method -/

/-- The method of `q₀` and the space behind it have been received. -/
def Opened (q₀ : Request) (ch : Channel) : Prop := ∃ y, ch.received = q₀.method ++ SP :: y

/-- The buffer of the last read is as it was read, if it has not been freed. -/
def Unread (ch : Channel) : Prop := ch.freed = false → ch.content = ch.received ++ [NUL]

section Known

variable {n w : ℕ} {ch : Channel} {data rest : List UInt8} {evs : List Event} {q₀ q : Request} {qs : List Request}

lemma Opened.recv (h : Opened q₀ ch) (data : List UInt8) : Opened q₀ (ch.recv data) := by
  obtain ⟨y, hy⟩ := h
  exact ⟨y ++ data, by simp [Channel.recv, hy]⟩

lemma unread_recv (ch : Channel) (data : List UInt8) : Unread (ch.recv data) := fun _ => rfl

lemma Unread.result_eq (h : Unread ch) (hf : ch.freed = false) :
    ch.result = outcome (parseRequest ch.request (.ofReceived ch.received)) := by
  rw [Channel.result, h hf]
  rfl

/-- Behind the first request's method the early return is not taken any more. -/
lemma Opened.result_ne (h : Opened q₀ ch) (hk : Known q₀.method) (hu : Unread ch) (hf : ch.freed = false) :
    ch.result ≠ some none := by
  obtain ⟨y, hy⟩ := h
  obtain ⟨m1, -, hout⟩ := outcome_known (m := .ofReceived ch.received) (t := y ++ [NUL])
    (b := if ch.reads = 0 then none else some (ch.reads - 1)) (k := ch.received.length) (by simp [Mem.ofReceived, hy]) hk
  rw [hu.result_eq hf, Channel.request, hout]
  cases yields _ <;> simp

/-- **A fresh buffer shows the fields it is parsed to.** -/
lemma Unread.result_iff (hu : Unread ch) (hf : ch.freed = false) (hk : Known q₀.method)
    (hs : ch.received <+: q₀.wire ++ rest) {f : Fields} :
    ch.result = some (some f) ↔ q₀.Shows ch.received.length f := by
  rw [hu.result_eq hf]
  exact outcome_eq_some_iff hs hk

lemma opened_of_shows (hs : ch.received <+: q₀.wire ++ rest) {f : Fields} (h : q₀.Shows ch.received.length f) :
    Opened q₀ ch := by
  rw [q₀.wire_eq, List.append_assoc] at hs
  obtain ⟨x, hx⟩ := List.prefix_of_prefix_length_le (List.prefix_append q₀.line _) hs h.1
  exact ⟨q₀.path ++ SP :: (q₀.version ++ CR :: [LF]) ++ x, by rw [← hx]; simp [Request.line]⟩

/-- **Each job frees the current buffer**, so every one but the first needs a read of its own. -/
lemma starved (hk : Known q₀.method) (ho : Opened q₀ ch) (hu : Unread ch) (h : Parsed n ch evs qs) :
    handles evs ≤ arrivals evs + if ch.freed then 0 else 1 := by
  induction evs generalizing ch qs with
  | nil => exact Nat.zero_le _
  | cons e evs ih =>
    cases e with
    | recv data =>
      have hle := ih (ho.recv data) (unread_recv ch data) (parsed_recv.1 h).2
      have hfreed : (ch.recv data).freed = false := rfl
      rw [hfreed] at hle
      simp only [handles, arrivals, Bool.false_eq_true, if_false] at hle ⊢
      omega
    | handle w =>
      obtain ⟨-, q, qs', rfl, hr, hrest⟩ := parsed_handle.1 h
      have hdef := hrest.defined
      simp only [Channel.after, Channel.handled, Bool.or_eq_false_iff] at hdef
      have hf : ch.freed = false := hdef.2.2
      have hsome : q.fields.isSome = true := by
        rcases hq : q.fields with _ | f
        · exact absurd (hr.trans (by rw [hq])) (ho.result_ne hk hu hf)
        · rfl
      have hfreed : (ch.after q).freed = true := by simp [Channel.after, Channel.handled, hsome]
      have ho' : Opened q₀ (ch.after q) := ho
      have hle := ih ho' (fun e => by rw [hfreed] at e; cases e) hrest
      rw [hfreed] at hle
      rw [hf]
      simp only [handles, arrivals, Bool.false_eq_true, if_true, if_false] at hle ⊢
      omega

/-- The next job is to find a request: it is past the early return, or its own request is. -/
def Due (q₀ : Request) (ch : Channel) (qs : List Request) : Prop := Opened q₀ ch ∨ ∀ q ∈ qs.head?, q.fields ≠ none

lemma Due.recv (h : Due q₀ ch qs) (data : List UInt8) : Due q₀ (ch.recv data) qs := h.imp_left fun ho => ho.recv data

/-- A job that is right about a request finds its fields in the buffer. -/
lemma Due.result_iff (hd : Due q₀ ch (q :: qs)) (hk : Known q₀.method) (hu : Unread ch) (hf : ch.freed = false)
    (hs : ch.received <+: q₀.wire ++ rest) :
    ch.result = some q.fields ↔ ∃ f, q.fields = some f ∧ q₀.Shows ch.received.length f := by
  constructor
  · intro hr
    rcases hq : q.fields with _ | f
    · rw [hq] at hr
      rcases hd with ho | hne
      · exact absurd hr (ho.result_ne hk hu hf)
      · exact absurd hq (hne q (by simp))
    · rw [hq] at hr
      exact ⟨f, rfl, (hu.result_iff hf hk hs).1 hr⟩
  · rintro ⟨f, hq, hshow⟩
    rw [hq]
    exact (hu.result_iff hf hk hs).2 hshow

/-- **Two reads before a job** leave one of the jobs with a freed buffer. -/
lemma not_parsed_crowded (hk : Known q₀.method) (hd : Due q₀ ch qs) (hu : Unread ch) (hf : ch.freed = false)
    (hs : ch.received ++ stream evs <+: q₀.wire ++ rest) (hsch : Schedule n ch.waiting evs) (hw : 2 ≤ ch.waiting) :
    ¬ Parsed n ch evs qs := by
  induction evs generalizing ch with
  | nil =>
    have h0 : ch.waiting = 0 := hsch
    omega
  | cons e evs ih =>
    cases e with
    | recv data =>
      rw [parsed_recv]
      rintro ⟨-, h⟩
      refine ih (hd.recv data) (unread_recv ch data) rfl ?_ hsch.2 ?_ h
      · simpa [Channel.recv, stream, Event.data] using hs
      · simp only [Channel.recv]
        omega
    | handle w =>
      rw [parsed_handle]
      rintro ⟨-, q, qs', rfl, hr, hrest⟩
      have hpre : ch.received <+: q₀.wire ++ rest := (List.prefix_append _ _).trans hs
      obtain ⟨f, hq, hshow⟩ := (hd.result_iff hk hu hf hpre).1 hr
      have hfreed : (ch.after q).freed = true := by simp [Channel.after, Channel.handled, hq]
      have ho : Opened q₀ (ch.after q) := opened_of_shows hpre hshow
      have hle := starved hk ho (fun e => by rw [hfreed] at e; cases e) hrest
      rw [hfreed, if_pos rfl] at hle
      have hcount := hsch.handles_eq
      simp only [handles, arrivals] at hcount
      omega

/-- Nothing happens on a closed connection without jobs. -/
lemma parsed_closed (hcl : ch.closed = true) (hw : ch.waiting = 0) (hu : ch.undefined = false) :
    Parsed n ch evs qs ↔ evs = [] ∧ qs = [] := by
  cases evs with
  | nil => simp [parsed_nil, hu]
  | cons e evs =>
    cases e with
    | recv data => simp [parsed_recv, hcl]
    | handle w => simp [parsed_handle, hw]

lemma inTurn_nil {k : ℕ} : InTurn q₀ k evs [] ↔ evs = [] := by
  match evs with
  | [] => simp [InTurn]
  | [.recv _] => simp [InTurn]
  | .recv _ :: .recv _ :: _ => simp [InTurn]
  | .recv _ :: .handle _ :: _ => simp [InTurn]
  | .handle _ :: _ => simp [InTurn]

/-- **The parses are right exactly if the arrivals are in turn.** The induction is on the schedule, by an arrival and its
job. -/
lemma parsed_iff_inTurn (hk : Known q₀.method) (evs : List Event) (qs : List Request) (ch : Channel)
    (hsch : Schedule n 0 evs) (hw : ch.waiting = 0) (hcl : ch.closed = false) (hund : ch.undefined = false)
    (hd : Due q₀ ch qs) (hs : ch.received ++ stream evs <+: q₀.wire ++ rest) :
    Parsed n ch evs qs ↔ InTurn q₀ ch.received.length evs qs := by
  match evs with
  | [] =>
    rw [parsed_nil]
    cases qs <;> simp [InTurn, hund]
  | .handle w :: evs => exact absurd hsch id
  | [.recv data] =>
    have h0 : 0 + 1 = 0 := hsch.2
    omega
  | .recv data :: .recv data' :: evs =>
    have hfalse : ¬ InTurn q₀ ch.received.length (.recv data :: .recv data' :: evs) qs := by simp [InTurn]
    refine iff_of_false ?_ hfalse
    rw [parsed_recv, parsed_recv]
    rintro ⟨-, -, h⟩
    have hs' : ((ch.recv data).recv data').received ++ stream evs <+: q₀.wire ++ rest := by
      simpa [Channel.recv, stream, Event.data] using hs
    refine not_parsed_crowded hk ((hd.recv data).recv data') (unread_recv _ data') rfl hs' ?_ ?_ h
    · simpa [Channel.recv, hw] using hsch.2.2
    · simp [Channel.recv]
  | .recv data :: .handle w :: evs =>
    have hpre : (ch.recv data).received <+: q₀.wire ++ rest := by
      refine (List.prefix_append _ (stream evs)).trans ?_
      simpa [Channel.recv, stream, Event.data] using hs
    have hlen : (ch.recv data).received.length = ch.received.length + data.length := by simp [Channel.recv]
    -- the channel behind a job that is right about a request with the fields `f`
    have hafter : ∀ {q : Request} {f : Fields} (qs' : List Request), q.fields = some f →
        q₀.Shows (ch.recv data).received.length f →
        (Parsed n ((ch.recv data).after q) evs qs' ↔
          (qs' ≠ [] → f.closing = false) ∧ InTurn q₀ (ch.received.length + data.length) evs qs') := by
      intro q f qs' hq hshow
      have hw' : ((ch.recv data).after q).waiting = 0 := by simp [Channel.after, Channel.handled, Channel.recv, hw]
      have hund' : ((ch.recv data).after q).undefined = false := by
        simp [Channel.after, Channel.handled, Channel.recv, hund, hcl]
      have hclosed : ((ch.recv data).after q).closed = f.closing := by
        simp [Channel.after, Channel.handled, Channel.recv, hq, hcl]
      rcases hclose : f.closing with _ | _
      · have ih := parsed_iff_inTurn hk evs qs' ((ch.recv data).after q) hsch.2.2 hw' (hclosed.trans hclose) hund'
          (Or.inl (opened_of_shows hpre hshow)) (by simpa [Channel.after, Channel.handled, Channel.recv, stream,
            Event.data] using hs)
        rw [ih, ← hlen]
        simp [Channel.after, Channel.handled]
      · rw [parsed_closed (hclosed.trans hclose) hw' hund']
        constructor
        · rintro ⟨rfl, rfl⟩
          exact ⟨fun h => absurd rfl h, trivial⟩
        · rintro ⟨hnil, hin⟩
          obtain rfl : qs' = [] := by
            by_contra hne
            exact absurd (hnil hne) (by decide)
          exact ⟨inTurn_nil.1 hin, rfl⟩
    rw [parsed_recv, parsed_handle]
    constructor
    · rintro ⟨-, -, q, qs', rfl, hr, hrest⟩
      obtain ⟨f, hq, hshow⟩ := ((hd.recv data).result_iff hk (unread_recv ch data) rfl hpre).1 hr
      obtain ⟨hclose, hin⟩ := (hafter qs' hq hshow).1 hrest
      exact ⟨⟨f, hq, hlen ▸ hshow, hclose⟩, hin⟩
    · intro h
      cases qs with
      | nil => exact absurd h id
      | cons q qs' =>
        obtain ⟨⟨f, hq, hshow, hclose⟩, hin⟩ := h
        rw [← hlen] at hshow
        refine ⟨hcl, ⟨hsch.2.1, by simp [Channel.recv]⟩, q, qs', rfl, ?_, (hafter qs' hq hshow).2 ⟨hclose, hin⟩⟩
        exact ((hd.recv data).result_iff hk (unread_recv ch data) rfl hpre).2 ⟨f, hq, hshow⟩

end Known

/-! ### A first request with an unknown method -/

/-- The buffer begins with the same token as what has been received. A known method would end it. -/
structure Rescan (ch : Channel) : Prop where
  nul : NUL ∈ ch.content
  token_eq : token (some SP) ch.content = token (some SP) ch.received
  bare : Known (token (some SP) ch.received) → ∃ t, ch.content = token (some SP) ch.received ++ NUL :: t

section Unknown

variable {n : ℕ} {ch : Channel} {data rest : List UInt8} {evs : List Event} {q₀ : Request} {qs : List Request}

/-- A fresh buffer. Of a stream whose first method is unknown, only a part of that method can look like a known one. -/
lemma rescan_recv (hk : ¬ Known q₀.method) (hs : ch.received ++ data <+: q₀.wire ++ rest) : Rescan (ch.recv data) := by
  have hclear : Clear (some SP) q₀.method := clear_of_notMem q₀.method_noNul q₀.method_noSpace
  have hcontent : (ch.recv data).content = (ch.recv data).received ++ [NUL] := rfl
  refine ⟨by simp [hcontent], by rw [hcontent, token_concat_nul], ?_⟩
  intro hknown
  rw [q₀.wire_eq, Request.line, List.append_assoc, List.append_assoc] at hs
  have hrec : (ch.recv data).received = ch.received ++ data := rfl
  rcases prefix_append_cons hs with hpre | ⟨y, hy, -⟩
  · have htoken : token (some SP) (ch.received ++ data) = ch.received ++ data := by
      have := token_append (t := []) (hclear.of_prefix hpre) (by simp [Stops])
      rwa [List.append_nil] at this
    exact ⟨[], by rw [hcontent, hrec, htoken]⟩
  · rw [hrec, hy, token_append hclear (stops_delim SP _)] at hknown
    exact absurd hknown hk

/-- A job that finds a known method runs into the end of the buffer. -/
lemma Rescan.result_none (h : Rescan ch) (hk : Known (token (some SP) ch.received)) : ch.result = none := by
  obtain ⟨t, ht⟩ := h.bare hk
  exact outcome_bare (m := { buf := ch.content }) ht hk

/-- A job that finds no known method returns early and leaves the buffer for the next one. -/
lemma Rescan.result_some (h : Rescan ch) (hk : ¬ Known (token (some SP) ch.received)) :
    ch.result = some none ∧ ∀ q : Request, Rescan (ch.after q) := by
  obtain ⟨m', hm', hnul, htoken⟩ := parse_unknown (m := { buf := ch.content })
    (b := if ch.reads = 0 then none else some (ch.reads - 1)) (k := ch.received.length) h.nul
    (by rw [h.token_eq]; exact hk)
  have hparse : parseRequest ch.request { buf := ch.content } = (.ok none, m') := hm'
  refine ⟨by rw [Channel.result, hparse]; rfl, fun q => ?_⟩
  have hcontent : (ch.after q).content = m'.buf := by simp [Channel.after, Channel.handled, hparse]
  refine ⟨hcontent ▸ hnul, ?_, fun hk' => absurd hk' hk⟩
  rw [hcontent, htoken, h.token_eq]
  rfl

/-- **Nothing is parsed and nothing is freed** where no job finds a known method. -/
lemma parsed_iff_unnamed (hk : ¬ Known q₀.method) (evs : List Event) (qs : List Request) (ch : Channel)
    (hsch : Schedule n ch.waiting evs) (hcl : ch.closed = false) (hf : ch.freed = false) (hund : ch.undefined = false)
    (hr : 0 < ch.waiting → Rescan ch) (hs : ch.received ++ stream evs <+: q₀.wire ++ rest) :
    Parsed n ch evs qs ↔ qs.length = handles evs ∧ (∀ q ∈ qs, q.fields = none) ∧ Unnamed ch.received evs := by
  induction evs generalizing qs ch with
  | nil =>
    rw [parsed_nil]
    simp only [hund, true_and, handles, List.length_eq_zero_iff, Unnamed, and_true]
    exact ⟨fun h => ⟨h, by simp [h]⟩, And.left⟩
  | cons e evs ih =>
    cases e with
    | recv data =>
      have hs' : (ch.recv data).received ++ stream evs <+: q₀.wire ++ rest := by
        simpa [Channel.recv, stream, Event.data] using hs
      have hpre : ch.received ++ data <+: q₀.wire ++ rest := (List.prefix_append _ _).trans hs'
      rw [parsed_recv, ih qs (ch.recv data) hsch.2 hcl rfl hund (fun _ => rescan_recv hk hpre) hs', and_iff_right hcl]
      rfl
    | handle w =>
      obtain ⟨p, hp⟩ : ∃ p, ch.waiting = p + 1 := by
        cases hw : ch.waiting with
        | zero =>
          rw [hw] at hsch
          exact absurd hsch id
        | succ p => exact ⟨p, rfl⟩
      rw [hp] at hsch
      have hres := hr (by omega)
      rw [parsed_handle, and_iff_right ⟨hsch.1, by omega⟩]
      by_cases hknown : Known (token (some SP) ch.received)
      · rw [hres.result_none hknown]
        refine iff_of_false (by simp) ?_
        rintro ⟨-, -, hun⟩
        exact hun.1 hknown
      · obtain ⟨hsome, hafter⟩ := hres.result_some hknown
        have hstep : ∀ {q : Request} (qs' : List Request), q.fields = none → (Parsed n (ch.after q) evs qs' ↔
            qs'.length = handles evs ∧ (∀ q' ∈ qs', q'.fields = none) ∧ Unnamed ch.received evs) := by
          intro q qs' hq
          have hw' : (ch.after q).waiting = p := by simp [Channel.after, Channel.handled, hp]
          exact ih qs' (ch.after q) (by rw [hw']; exact hsch.2) (by simp [Channel.after, Channel.handled, hq, hcl])
            (by simp [Channel.after, Channel.handled, hq, hf])
            (by simp [Channel.after, Channel.handled, hund, hcl, hf]) (fun _ => hafter q) hs
        rw [hsome]
        constructor
        · rintro ⟨q, qs', rfl, hq, hrest⟩
          have hq' : q.fields = none := (Option.some.inj hq).symm
          obtain ⟨h1, h2, h3⟩ := (hstep qs' hq').1 hrest
          refine ⟨by simp [handles, h1], ?_, hknown, h3⟩
          rw [List.forall_mem_cons]
          exact ⟨hq', h2⟩
        · rintro ⟨h1, h2, -, h3⟩
          cases qs with
          | nil => simp [handles] at h1
          | cons q qs' =>
            rw [List.forall_mem_cons] at h2
            refine ⟨q, qs', rfl, by rw [h2.1], (hstep qs' h2.1).2 ⟨?_, h2.2, h3⟩⟩
            simpa [handles] using h1

end Unknown

/-! ### The result -/

lemma parsedInOrder_iff_parsed {n fd : ℕ} {qs : List Request} {evs : List Event} (hsch : Schedule n 0 evs) :
    ParsedInOrder n fd qs evs ↔ Parsed n {} evs qs := by
  have hrel := serve_events n fd fun data hd => hsch.recv_ne hd
  unfold ParsedInOrder Parsed
  rcases hs : serve n (.accept fd :: evs.flatMap Event.actions) with _ | s <;>
    rcases hc : Transition.run (Channel.step n) {} evs with _ | ch <;> rw [hs, hc] at hrel
  · simp
  · cases hrel
  · cases hrel
  · cases hrel with
    | some h =>
      have hparsed : s.parsed = qs.map (fun q => (0, q.fields)) ↔ ch.parsed = qs.map Request.fields := by
        have hmap : qs.map (fun q => (0, q.fields)) = (qs.map Request.fields).map fun f => (0, f) := by simp
        rw [h.parsed, hmap]
        exact (List.map_injective_iff.2 (Prod.mk_right_injective 0)).eq_iff
      simp only [Option.some.injEq, exists_eq_left', List.nil_append, ← hparsed, ← h.undefined, and_assoc]

/-- **Which cuts and schedules keep the requests apart.** For a stream that is the concatenation of the requests `qs`,
the requests are parsed in order exactly if the schedule is aligned with them. -/
theorem parsedInOrder_iff (n fd : ℕ) (qs : List Request) (evs : List Event) (hsch : Schedule n 0 evs)
    (hs : stream evs = qs.flatMap fun q => q.wire) : ParsedInOrder n fd qs evs ↔ Aligned qs evs := by
  rw [parsedInOrder_iff_parsed hsch]
  cases qs with
  | nil =>
    have hnil : evs = [] := by
      cases evs with
      | nil => rfl
      | cons e evs =>
        cases e with
        | recv data =>
          have hd : data = [] := (List.append_eq_nil_iff.1 hs).1
          exact absurd hd hsch.1
        | handle w => exact absurd hsch id
    rw [hnil, parsed_nil, Aligned]
    simp
  | cons q qs =>
    have hpre : ([] : List UInt8) ++ stream evs <+: q.wire ++ qs.flatMap fun q => q.wire := by
      rw [List.nil_append, hs, List.flatMap_cons]
    rw [Aligned]
    split_ifs with hk
    · have hd : Due q {} (q :: qs) := by
        refine Or.inr fun q' hq' => ?_
        obtain rfl : q = q' := by simpa using hq'
        rw [Ne, q.fields_eq_none]
        exact not_not.2 hk
      exact parsed_iff_inTurn hk evs (q :: qs) {} hsch rfl rfl rfl hd hpre
    · rw [parsed_iff_unnamed hk evs (q :: qs) {} hsch rfl rfl rfl (fun h => absurd h (lt_irrefl 0)) hpre, hsch.handles_eq]
      refine and_congr eq_comm (and_congr ?_ Iff.rfl)
      simp only [Request.fields_eq_none]

lemma get_noSpace : SP ∉ bytes "GET" := by decide

lemma httpVersion_line : CR ∉ bytes "HTTP/1.1" := by decide

/-- A request without header lines. -/
def getRequest (path : List UInt8) (hp : SP ∉ path) (h0 : NUL ∉ path) : Request where
  method := bytes "GET"
  path := path
  version := bytes "HTTP/1.1"
  headers := []
  body := []
  method_noSpace := get_noSpace
  path_noSpace := hp
  version_line := httpVersion_line
  method_noNul := by decide
  path_noNul := h0
  version_noNul := by decide
  headers_plain := by simp

/-- The same request twice, each time in an arrival of its own and on another worker. -/
theorem parsedInOrder_get :
    ParsedInOrder 2 3
      [getRequest (bytes "/a") (by decide) (by decide), getRequest (bytes "/a") (by decide) (by decide)]
      [.recv (bytes "GET /a HTTP/1.1\r\n\r\n"), .handle 0, .recv (bytes "GET /a HTTP/1.1\r\n\r\n"), .handle 1] := by
  refine (parsedInOrder_iff 2 3 _ _ (by decide) (by decide)).2 ?_
  have hk : Known (bytes "GET") := by decide
  have hshow : ∀ k, 19 ≤ k → Request.Shows (getRequest (bytes "/a") (by decide) (by decide)) k _ :=
    fun _ hk => Request.shows_of_le _ hk
  rw [Aligned]
  refine (if_pos hk).mpr ⟨⟨_, if_pos hk, hshow _ (by decide), fun _ => rfl⟩, ⟨_, if_pos hk, hshow _ (by decide), ?_⟩, trivial⟩
  exact fun h => absurd rfl h

/-- Two requests, each in an arrival of its own: the second job parses the first request again. -/
theorem not_parsedInOrder :
    ¬ ∀ (n fd : ℕ) (qs : List Request) (evs : List Event), Schedule n 0 evs → stream evs = qs.flatMap (fun q => q.wire) →
      ParsedInOrder n fd qs evs := by
  intro h
  obtain ⟨s, hs, -, -, hparsed⟩ := h 1 3
    [getRequest (bytes "/a") (by decide) (by decide), getRequest (bytes "/b") (by decide) (by decide)]
    [.recv (bytes "GET /a HTTP/1.1\r\n\r\n"), .handle 0, .recv (bytes "GET /b HTTP/1.1\r\n\r\n"), .handle 0]
    (by decide) (by decide)
  have hpaths : (serve 1 (.accept 3 :: [.recv (bytes "GET /a HTTP/1.1\r\n\r\n"), .handle 0,
      .recv (bytes "GET /b HTTP/1.1\r\n\r\n"), .handle 0].flatMap Event.actions)).map
      (fun s => s.parsed.map fun p => p.2.bind Fields.path) = some [some (bytes "/a"), some (bytes "/a")] := by
    decide +kernel
  rw [hs, Option.map_some, Option.some.injEq, hparsed] at hpaths
  exact absurd hpaths (by decide +kernel)

end Wrensong.Server
