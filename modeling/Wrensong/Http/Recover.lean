import Wrensong.Http.Message

/-!
# What the parser recovers from a request

A `ClientRequest` is a request as a well-behaved client writes it: a known method, at most `MAX_HEADERS` header lines
`name: value`, and header names that are one of the four the handler looks for or do not look like one of them.
`ClientRequest.fields` says what the client meant: the last value of each name, and whether it asked to close.
`ClientRequest.recovered` is the result: the handler reads the request in bounds and its locals are these fields.
-/

namespace Wrensong.Http

open Wrensong.Lib.Bytes

/-! ### Requests of a client -/

/-- The names the handler looks for. -/
def fieldNames : List (List UInt8) := [bytes "Content-Length", bytes "Host", bytes "Command", bytes "Connection"]

/-- A header line `name: value`. -/
structure ClientHeader where
  name : List UInt8
  value : List UInt8
  name_ne : name ≠ []
  name_ok : ∀ b ∈ name, b ≠ COLON ∧ b ≠ CR ∧ b ≠ LF ∧ b ≠ NUL
  value_ok : ∀ b ∈ value, b ≠ CR ∧ b ≠ NUL
  name_known : name ∈ fieldNames ∨
    (¬ bytes "Content-Length" <+: name ∧ ¬ bytes "Host" <+: name ∧ ¬ bytes "Connection" <+: name ∧
      name ≠ bytes "Command")

/-- The line of the header: a space stands between the colon and the value. -/
def ClientHeader.line (h : ClientHeader) : HeaderLine where
  name := h.name
  text := SP :: h.value
  name_noColon := fun hb => (h.name_ok _ hb).1 rfl
  name_line := fun hb => (h.name_ok _ hb).2.1 rfl
  text_line := by
    rw [List.mem_cons, not_or]
    exact ⟨by decide, fun hb => (h.value_ok _ hb).1 rfl⟩

lemma ClientHeader.plain (h : ClientHeader) : h.line.Plain := by
  refine ⟨fun hb => (h.name_ok _ hb).2.2.2 rfl, ?_, by simp [line]⟩
  simp only [line, List.mem_cons, not_or]
  exact ⟨by decide, fun hb => (h.value_ok _ hb).2 rfl⟩

/-- A request of a client. -/
structure ClientRequest where
  method : List UInt8
  typ : HttpMethodTyp
  path : List UInt8
  version : List UInt8
  headers : List ClientHeader
  body : List UInt8
  method_known : (method, typ) ∈ knownHttpMethods
  path_ok : ∀ b ∈ path, b ≠ SP ∧ b ≠ CR ∧ b ≠ NUL
  version_ok : ∀ b ∈ version, b ≠ CR ∧ b ≠ NUL
  headers_le : headers.length ≤ maxHeaders

lemma ClientRequest.known (q : ClientRequest) : Known q.method := ⟨_, q.method_known, rfl⟩

lemma ClientRequest.path_clear (q : ClientRequest) : Clear (some SP) q.path :=
  clear_of_notMem (fun hb => (q.path_ok _ hb).2.2 rfl) fun hb => (q.path_ok _ hb).1 rfl

lemma ClientRequest.version_clear (q : ClientRequest) : Clear (some CR) q.version :=
  clear_of_notMem (fun hb => (q.version_ok _ hb).2 rfl) fun hb => (q.version_ok _ hb).1 rfl

/-- The request as a message. -/
def ClientRequest.message (q : ClientRequest) : Message where
  method := q.method
  path := q.path
  version := q.version
  headers := q.headers.map ClientHeader.line
  body := q.body
  method_noSpace := fun hb => (q.known.clear _ hb).2 rfl
  path_noSpace := fun hb => (q.path_clear _ hb).2 rfl
  version_line := fun hb => (q.version_clear _ hb).2 rfl

/-- The bytes the client sends. -/
def ClientRequest.wire (q : ClientRequest) : List UInt8 := q.message.wire

/-! ### What the client meant -/

/-- The value of the last header of a name. -/
def lastValue (n : List UInt8) (hs : List ClientHeader) : Option (List UInt8) :=
  (hs.filter fun h => h.name = n).getLast?.map ClientHeader.value

/-- Some `Connection` header starts with `close`. -/
def AsksClose (hs : List ClientHeader) : Prop := ∃ h ∈ hs, h.name = bytes "Connection" ∧ bytes "close" <+: h.value

instance (hs : List ClientHeader) : Decidable (AsksClose hs) :=
  inferInstanceAs (Decidable (∃ h ∈ hs, h.name = bytes "Connection" ∧ bytes "close" <+: h.value))

/-- The fields the client wrote. -/
def ClientRequest.fields (q : ClientRequest) : Fields where
  method := q.typ
  path := some q.path
  host := lastValue (bytes "Host") q.headers
  command := lastValue (bytes "Command") q.headers
  contentLength := ((lastValue (bytes "Content-Length") q.headers).map atoi).getD 0
  closing := decide (AsksClose q.headers)

lemma lastValue_append (n : List UInt8) (hs : List ClientHeader) (h : ClientHeader) :
    lastValue n (hs ++ [h]) = if h.name = n then some h.value else lastValue n hs := by
  unfold lastValue
  rw [List.filter_append]
  by_cases hn : h.name = n
  · simp [hn]
  · simp [hn]

lemma asksClose_append (hs : List ClientHeader) (h : ClientHeader) :
    AsksClose (hs ++ [h]) ↔ AsksClose hs ∨ (h.name = bytes "Connection" ∧ bytes "close" <+: h.value) := by
  simp [AsksClose, or_and_right, exists_or]

/-! ### The `if` chain on such names -/

/-- **The prefix comparisons of the handler are comparisons of names** on the headers of a client. -/
lemma ClientHeader.set_eq (h : ClientHeader) (f : Fields) :
    f.set h.name h.value =
      { f with
        host := if h.name = bytes "Host" then some h.value else f.host
        command := if h.name = bytes "Command" then some h.value else f.command
        contentLength := if h.name = bytes "Content-Length" then atoi h.value else f.contentLength
        closing := f.closing || decide (h.name = bytes "Connection" ∧ bytes "close" <+: h.value) } := by
  have hclose : strncmpEq h.value (bytes "close") 5 = decide (bytes "close" <+: h.value) := by
    rw [Bool.eq_iff_iff, strncmpEq_prefix (by decide), decide_eq_true_eq]
  unfold Fields.set
  rw [hclose]
  rcases h.name_known with hmem | ⟨hcl, hho, hcn, hco⟩
  · simp only [fieldNames, List.mem_cons, List.not_mem_nil, or_false] at hmem
    rcases hmem with e | e | e | e <;> rw [e]
    · simp +decide
    · simp +decide
    · simp +decide
    · by_cases hv : bytes "close" <+: h.value <;> simp +decide [hv]
  · have h1 : strncmpEq h.name (bytes "Content-Length") 14 = false := by
      rw [Bool.eq_false_iff, Ne, strncmpEq_prefix (by decide)]
      exact hcl
    have h2 : strncmpEq h.name (bytes "Host") 4 = false := by
      rw [Bool.eq_false_iff, Ne, strncmpEq_prefix (by decide)]
      exact hho
    have h3 : strncmpEq h.name (bytes "Command") 12 = false := by
      rw [Bool.eq_false_iff, Ne, strncmpEq_of_lt (by decide)]
      exact hco
    have h4 : strncmpEq h.name (bytes "Connection") 10 = false := by
      rw [Bool.eq_false_iff, Ne, strncmpEq_prefix (by decide)]
      exact hcn
    have hne : ∀ {n : List UInt8}, ¬ n <+: h.name → ¬ h.name = n := fun hn e => hn (e ▸ List.prefix_rfl)
    simp [h1, h2, h3, h4, hne hcl, hne hho, hne hcn, hco]

/-- **The loop keeps the last value of each name.** The induction is on the list from its end. -/
lemma foldl_set (hs : List ClientHeader) (t : HttpMethodTyp) (p : Option (List UInt8)) :
    hs.foldl (fun (f : Fields) h => f.set h.name h.value) { method := t, path := p } =
      { method := t, path := p, host := lastValue (bytes "Host") hs, command := lastValue (bytes "Command") hs,
        contentLength := ((lastValue (bytes "Content-Length") hs).map atoi).getD 0,
        closing := decide (AsksClose hs) } := by
  induction hs using List.reverseRecOn with
  | nil => simp [lastValue, AsksClose]
  | append_singleton hs h ih =>
    rw [List.foldl_append, List.foldl_cons, List.foldl_nil, ih, h.set_eq]
    simp only [lastValue_append, asksClose_append, Bool.decide_or, Bool.decide_and]
    by_cases hcl : h.name = bytes "Content-Length" <;> simp [hcl]

/-! ### The handler on such a request -/

lemma findMethod_of_mem {m : List UInt8} {t : HttpMethodTyp} (h : (m, t) ∈ knownHttpMethods) :
    findMethod m .unknown = t := by
  have hall : ∀ e ∈ knownHttpMethods, findMethod e.1 .unknown = e.2 := by decide
  exact hall _ h

/-- The outcome and the memory of the handler are those of a clean parse with the fields `f`: every string pointer is
null or the start of a string in the buffer, and the strings are those of `f`. -/
def Recovers (r : Except Fault (Option (Cursor × Locals)) × Mem) (n : ℕ) (f : Fields) : Prop :=
  r.2.Clean n ∧ ∃ c l, r.1 = .ok (some (c, l)) ∧ l.Settled r.2.buf ∧ l.fieldsIn r.2.buf = f

/-- **The parser recovers what a client wrote.** -/
theorem ClientRequest.recovered (q : ClientRequest) (b : Option ℕ) (k : ℕ) :
    Recovers (parseRequest { buffer := b, bufferLen := k } (.ofReceived q.wire)) q.wire.length q.fields := by
  obtain ⟨l, pre, log, hlen, hset, hfields, hrun, hlog⟩ :=
    request_run (q.message.block ++ q.body) q.known q.path_clear q.version_clear b k
  have hrun' : parseRequest { buffer := b, bufferLen := k } (.ofReceived q.wire) = _ := hrun
  set hs := q.headers.map ClientHeader.line with hhs
  obtain ⟨n, hn⟩ := Nat.exists_eq_add_of_le (show hs.length ≤ maxHeaders by simpa [hhs] using q.headers_le)
  have hb : (Mem.mk (pre ++ (q.message.block ++ q.body ++ [NUL])) log []).buf =
      pre ++ (hs.flatMap HeaderLine.line ++ ([CR, LF] ++ q.body ++ [NUL])) := by
    simp [Message.block, ClientRequest.message, hhs]
  obtain ⟨l', pre', log', hlen', hset', hfields', hrun2, hlog'⟩ :=
    headers_run hs (fun h hh => by
      obtain ⟨x, -, rfl⟩ := List.mem_map.1 hh
      exact x.plain) n hset hb rfl
  have hwire : q.wire.length = pre'.length + 2 + q.body.length := by
    rw [hlen', hlen]
    simp [ClientRequest.wire, Message.wire, Message.block, ClientRequest.message, hhs]
    omega
  have hfold : l'.fieldsIn pre' = q.fields := by
    rw [hfields', hfields, findMethod_of_mem q.method_known, hhs, List.foldl_map]
    exact foldl_set q.headers q.typ (some q.path)
  have hclean : ∀ a ∈ log ++ log', a.Allowed q.wire.length := by
    rw [List.forall_mem_append]
    exact ⟨hlog _ (by omega), hlog' _ (by omega)⟩
  rw [hrun', bind_pure_apply, hn, hrun2]
  -- either all rounds are used up, or the next one is on the blank line
  cases n with
  | zero =>
    refine ⟨hclean, _, l', rfl, hset'.append _, ?_⟩
    exact (hset'.fieldsIn_append _).trans hfold
  | succ n =>
    rw [round_blank n l' (show _ = pre' ++ CR :: (LF :: (q.body ++ [NUL])) by simp) rfl]
    refine ⟨?_, _, l', rfl, hset'.append _, ?_⟩
    · have hlast : ∀ a ∈ [Access.strsep (.off pre'.length), .step (.off (pre'.length + 2)), .read (.off pre'.length)],
          a.Allowed q.wire.length := by
        simp [Access.Allowed, Cursor.Inside]
        omega
      exact List.forall_mem_append.2 ⟨hclean, hlast⟩
    · exact (hset'.fieldsIn_append _).trans hfold

end Wrensong.Http
