import Wrensong.Http.Defs

/-!
# What each step of the handler does

One lemma for each primitive and each shape of its input, and from them one for each way a round of the header loop can
go. The buffer is always written as `pre ++ unread`, with the cursor at `pre.length`, so that a lemma shows which bytes
a step overwrites and that everything before the cursor stays.

* `readHeader_ok`, `readHeader_noColon`, `readHeader_over`: a header line with a colon, one without, and a colon that is
  the last byte of the buffer;
* `round_cr`, `round_blank`, `round_stop`, `round_nul`: a round on a line that ends in `\r`, on an empty line, on an
  empty rest, and on a line the end of the string cuts off.
-/

namespace Wrensong.Http

open Wrensong.Lib.Bytes

/-! ### Sequencing -/

section Bind

variable {α β : Type} {x : Handler α} {f : α → Handler β} {m m' : Mem}

lemma bind_ok {a : α} (h : x m = (.ok a, m')) : (x >>= f) m = f a m' := by
  simp only [bind, h]

lemma bind_error {e : Fault} (h : x m = (.error e, m')) : (x >>= f) m = (.error e, m') := by
  simp only [bind, h]

/-- Two programs that do the same at their memories do the same with a continuation. -/
lemma bind_eq {y : Handler α} (h : x m = y m') (f : α → Handler β) : (x >>= f) m = (y >>= f) m' := by
  rcases hy : y m' with ⟨e | a, m''⟩
  · rw [bind_error (h.trans hy), bind_error hy]
  · rw [bind_ok (h.trans hy), bind_ok hy]

end Bind

lemma step_bind {β : Type} (c : Cursor) (f : Cursor → Handler β) (m : Mem) :
    (step c >>= f) m = f c.next (m.note (.step c.next)) := rfl

@[simp] lemma pure_apply {α : Type} (a : α) (m : Mem) : (pure a : Handler α) m = (.ok a, m) := rfl

@[simp] lemma note_buf (m : Mem) (a : Access) : (m.note a).buf = m.buf := rfl

/-! ### The primitives -/

section Primitives

variable {m : Mem} {pre tok t : List UInt8} {i : ℕ}

/-- `strsep` on a token that ends in the delimiter overwrites the delimiter. -/
lemma strsep_found {d : UInt8} (hb : m.buf = pre ++ (tok ++ d :: t)) (hi : i = pre.length)
    (h : Clear (some d) tok) (hd : d ≠ NUL) :
    strsep (some d) (.off i) m = (.ok (.off i, .off (i + tok.length + 1)),
      { m.note (.strsep (.off i)) with buf := pre ++ (tok ++ NUL :: t) }) := by
  subst hi
  have htok : token (some d) (m.buf.drop pre.length) = tok := by
    rw [hb, List.drop_left' rfl]
    exact token_append h (stops_delim d t)
  have hget : m.buf[pre.length + tok.length]? = some d := by
    rw [hb, ← List.append_assoc]
    simp
  have hset : m.buf.set (pre.length + tok.length) NUL = pre ++ (tok ++ NUL :: t) := by
    rw [hb, ← List.append_assoc, ← List.append_assoc, List.set_append_right _ _ (by simp)]
    simp
  simp only [strsep, note_buf, htok, hget, hd, if_false, hset]

/-- `strsep` on a token that a `NUL` ends changes nothing and leaves a null cursor. -/
lemma strsep_nul {dl : Option UInt8} (hb : m.buf = pre ++ (tok ++ NUL :: t)) (hi : i = pre.length)
    (h : Clear dl tok) : strsep dl (.off i) m = (.ok (.off i, .null), m.note (.strsep (.off i))) := by
  subst hi
  have htok : token dl (m.buf.drop pre.length) = tok := by
    rw [hb, List.drop_left' rfl]
    exact token_append h (stops_nul dl t)
  have hget : m.buf[pre.length + tok.length]? = some NUL := by
    rw [hb, ← List.append_assoc]
    simp
  simp only [strsep, note_buf, htok, hget, if_true]

lemma strsep_over {dl : Option UInt8} (hi : m.buf.length ≤ i) :
    strsep dl (.off i) m = (.error .overread, m.note (.strsep (.off i))) := by
  have hdrop : m.buf.drop i = [] := List.drop_eq_nil_of_le hi
  have hget : m.buf[i]? = none := List.getElem?_eq_none hi
  simp [strsep, hdrop, token, hget]

lemma strsep_wild {dl : Option UInt8} : strsep dl .wild m = (.error .badPointer, m.note (.strsep .wild)) := rfl

lemma strsep_null {dl : Option UInt8} : strsep dl .null m = (.ok (.null, .null), m.note (.strsep .null)) := rfl

lemma byteAt_cons {b : UInt8} (hb : m.buf = pre ++ b :: t) (hi : i = pre.length) :
    byteAt (.off i) m = (.ok b, m.note (.read (.off i))) := by
  subst hi
  have hget : m.buf[pre.length]? = some b := by rw [hb]; simp
  simp only [byteAt, note_buf, hget]

lemma cString_nul (hb : m.buf = pre ++ (tok ++ NUL :: t)) (hi : i = pre.length) (h : Clear none tok) :
    cString (.off i) m = (.ok tok, m.note (.string (.off i))) := by
  subst hi
  have hdrop : m.buf.drop pre.length = tok ++ NUL :: t := by rw [hb, List.drop_left' rfl]
  simp [cString, hdrop, cstr_append_nul h]

end Primitives

/-! ### Storing a header -/

/-- What the `if` chain makes of a name, a value and the cursor of the value. -/
def Locals.set (l : Locals) (k v : List UInt8) (value : Cursor) : Locals :=
  if strncmpEq k (bytes "Content-Length") 14 then { l with req := { l.req with contentLength := atoi v } }
  else if strncmpEq k (bytes "Host") 4 then { l with req := { l.req with host := value } }
  else if strncmpEq k (bytes "Command") 12 then { l with req := { l.req with command := value } }
  else if strncmpEq k (bytes "Connection") 10 then
    if strncmpEq v (bytes "close") 5 then { l with closing := true } else l
  else l

/-- The chain reads the two strings and writes nothing to the buffer. -/
lemma setHeader_ok {m : Mem} {pre k t pre' v t' : List UInt8} {i j : ℕ} (l : Locals)
    (hk : m.buf = pre ++ (k ++ NUL :: t)) (hi : i = pre.length) (hck : Clear none k)
    (hv : m.buf = pre' ++ (v ++ NUL :: t')) (hj : j = pre'.length) (hcv : Clear none v) :
    ∃ log, setHeader (.off i) (.off j) l m = (.ok (l.set k v (.off j)), { m with log := m.log ++ log }) ∧
      ∀ a ∈ log, a = .string (.off i) ∨ a = .string (.off j) := by
  have h1 := cString_nul hk hi hck
  have hv' : (m.note (.string (.off i))).buf = pre' ++ (v ++ NUL :: t') := hv
  have h2 := cString_nul hv' hj hcv
  unfold setHeader
  rw [bind_ok h1]
  by_cases hcl : strncmpEq k (bytes "Content-Length") 14 = true
  · refine ⟨[.string (.off i), .string (.off j)], ?_, by simp⟩
    simp only [hcl, if_true, Locals.set]
    rw [bind_ok h2]
    simp [Mem.note]
  by_cases hho : strncmpEq k (bytes "Host") 4 = true
  · exact ⟨[.string (.off i)], by simp [hcl, hho, Locals.set, Mem.note], by simp⟩
  by_cases hco : strncmpEq k (bytes "Command") 12 = true
  · exact ⟨[.string (.off i)], by simp [hcl, hho, hco, Locals.set, Mem.note], by simp⟩
  by_cases hcn : strncmpEq k (bytes "Connection") 10 = true
  · refine ⟨[.string (.off i), .string (.off j)], ?_, by simp⟩
    simp only [hcl, hho, hco, hcn, if_true, if_false, Bool.false_eq_true, Locals.set]
    rw [bind_ok h2]
    simp [Mem.note]
  · exact ⟨[.string (.off i)], by simp [hcl, hho, hco, hcn, Locals.set, Mem.note], by simp⟩

/-! ### Which accesses are in order -/

/-- The cursor is at one of the bytes up to the terminating `NUL` at offset `n`. -/
def Cursor.Inside (n : ℕ) : Cursor → Prop
  | .off i => i ≤ n
  | _ => False

/-- **An access in order**: no string function gets a null, wild or outer cursor, and no `++` leaves the buffer. -/
def Access.Allowed (n : ℕ) : Access → Prop
  | .strsep c | .read c | .string c => c.Inside n
  | .step (.off i) => i ≤ n
  | .step _ => True

instance (n : ℕ) (c : Cursor) : Decidable (c.Inside n) := by
  cases c <;> unfold Cursor.Inside <;> infer_instance

instance (n : ℕ) : DecidablePred (Access.Allowed n) := fun a => by
  cases a with
  | step c => cases c <;> unfold Access.Allowed <;> infer_instance
  | _ => unfold Access.Allowed; infer_instance

/-- Every access so far was in order. -/
def Mem.Clean (n : ℕ) (m : Mem) : Prop := ∀ a ∈ m.log, a.Allowed n

instance (n : ℕ) (m : Mem) : Decidable (m.Clean n) := inferInstanceAs (Decidable (∀ a ∈ m.log, a.Allowed n))

/-! ### The log only grows -/

/-- Running `x` keeps what is in the log and in the list of values. -/
def Extends {α : Type} (x : Handler α) : Prop :=
  ∀ m, m.log <+: (x m).2.log ∧ m.values <+: (x m).2.values

lemma Extends.bind {α β : Type} {x : Handler α} {f : α → Handler β} (hx : Extends x) (hf : ∀ a, Extends (f a)) :
    Extends (x >>= f) := by
  intro m
  have h := hx m
  rcases hr : x m with ⟨a | a, m'⟩
  · rw [bind_error hr]
    rwa [hr] at h
  · rw [bind_ok hr]
    rw [hr] at h
    exact ⟨h.1.trans (hf a m').1, h.2.trans (hf a m').2⟩

lemma extends_pure {α : Type} (a : α) : Extends (pure a : Handler α) :=
  fun _ => ⟨List.prefix_rfl, List.prefix_rfl⟩

lemma note_extends (m : Mem) (a : Access) : m.log <+: (m.note a).log ∧ m.values <+: (m.note a).values :=
  ⟨List.prefix_append _ _, List.prefix_rfl⟩

lemma extends_strsep (d : Option UInt8) (c : Cursor) : Extends (strsep d c) := by
  intro m
  have h := note_extends m (.strsep c)
  unfold strsep
  split
  · exact h
  · exact h
  · dsimp only
    split
    · exact h
    · split <;> exact h

lemma extends_step (c : Cursor) : Extends (step c) := fun m => note_extends m _

lemma extends_byteAt (c : Cursor) : Extends (byteAt c) := by
  intro m
  have h := note_extends m (.read c)
  unfold byteAt
  split
  · dsimp only
    split <;> exact h
  · exact h

lemma extends_cString (c : Cursor) : Extends (cString c) := by
  intro m
  have h := note_extends m (.string c)
  unfold cString
  split
  · dsimp only
    split <;> exact h
  · exact h

lemma extends_keepValue (c : Cursor) : Extends (keepValue c) := by
  intro m
  unfold keepValue
  split
  · exact ⟨List.prefix_rfl, List.prefix_append _ _⟩
  · exact ⟨List.prefix_rfl, List.prefix_rfl⟩

lemma extends_setHeader (k v : Cursor) (l : Locals) : Extends (setHeader k v l) := by
  refine (extends_cString k).bind fun s => ?_
  split_ifs
  · exact (extends_cString v).bind fun _ => extends_pure _
  · exact extends_pure _
  · exact extends_pure _
  · exact (extends_cString v).bind fun _ => extends_pure _
  · exact extends_pure _

lemma extends_readHeader (c : Cursor) (l : Locals) : Extends (readHeader c l) :=
  (extends_strsep _ _).bind fun _ => (extends_step _).bind fun _ => (extends_strsep _ _).bind fun _ =>
    (extends_keepValue _).bind fun _ => extends_setHeader _ _ _

lemma extends_parseHeaders : ∀ (n : ℕ) (c : Cursor) (l : Locals), Extends (parseHeaders n c l)
  | 0, _, _ => extends_pure _
  | n + 1, _, _ => by
    refine (extends_strsep _ _).bind fun _ => (extends_step _).bind fun _ => (extends_byteAt _).bind fun b => ?_
    split_ifs
    · exact extends_pure _
    · exact (extends_readHeader _ _).bind fun l => extends_parseHeaders n _ l

/-- An access out of order stays in the log. -/
lemma not_clean_of_extends {α : Type} {x : Handler α} (hx : Extends x) {m : Mem} {n : ℕ} (h : ¬ m.Clean n) :
    ¬ (x m).2.Clean n := fun hc => h fun a ha => hc a ((hx m).1.subset ha)

/-! ### One header line -/

/-- The string at the value of a header: `r` is the text behind the colon and `y` what stands behind the `NUL` that
ends the line. A text that is empty is stepped over into `y`. -/
def valueOf (r y : List UInt8) : List UInt8 := if r = [] then cstr y else r.tail

section HeaderLine

variable {m : Mem} {pre key r y : List UInt8} {i : ℕ} (l : Locals)

/-- **A header line with a colon.** -/
lemma readHeader_ok (hb : m.buf = pre ++ (key ++ COLON :: (r ++ NUL :: y))) (hi : i = pre.length)
    (hk : Clear (some COLON) key) (hr : Clear none r) (hy : r = [] → NUL ∈ y) :
    ∃ log, readHeader (.off i) l m = (.ok (l.set key (valueOf r y) (.off (i + key.length + 2))),
        { buf := pre ++ (key ++ NUL :: (r ++ NUL :: y)), log := m.log ++ log,
          values := m.values ++ [valueOf r y] }) ∧
      ∀ n, i + key.length + 2 ≤ n → ∀ a ∈ log, a.Allowed n := by
  have h1 := strsep_found hb hi hk (by decide)
  -- the memory behind the first `strsep` and the `++`
  set m1 : Mem := ({ m.note (.strsep (.off i)) with buf := pre ++ (key ++ NUL :: (r ++ NUL :: y)) } : Mem).note
    (.step (.off (i + key.length + 2))) with hm1
  -- where the value stands, whichever of the two shapes the line has
  obtain ⟨pre', t', hv, hlen, hclear⟩ : ∃ pre' t', m1.buf = pre' ++ (valueOf r y ++ NUL :: t') ∧
      i + key.length + 2 = pre'.length ∧ Clear none (valueOf r y) := by
    cases r with
    | nil =>
      obtain ⟨t', ht'⟩ := exists_cstr (hy rfl)
      refine ⟨pre ++ key ++ [NUL, NUL], t', ?_, by simp [hi]; omega, ?_⟩
      · simp only [valueOf, if_true, hm1, note_buf, List.append_assoc, List.cons_append, List.nil_append, ← ht']
      · simpa [valueOf] using cstr_clear y
    | cons c r =>
      refine ⟨pre ++ key ++ [NUL, c], y, ?_, by simp [hi]; omega, ?_⟩
      · simp [valueOf, hm1]
      · simpa [valueOf] using (clear_cons.1 hr).2
  have h2 : strsep none (.off (i + key.length + 2)) m1 =
      (.ok (.off (i + key.length + 2), .null), m1.note (.strsep (.off (i + key.length + 2)))) :=
    strsep_nul hv hlen hclear
  have hdrop : m1.buf.drop (i + key.length + 2) = valueOf r y ++ NUL :: t' := by
    rw [hv, hlen, List.drop_left' rfl]
  set m2 : Mem := { m1.note (.strsep (.off (i + key.length + 2))) with
    values := m.values ++ [valueOf r y] } with hm2
  have h3 : keepValue (.off (i + key.length + 2)) (m1.note (.strsep (.off (i + key.length + 2)))) =
      (.ok (), m2) := by
    simp only [keepValue, note_buf, hdrop, cstr_append_nul hclear]
    rfl
  have hk2 : m2.buf = pre ++ (key ++ NUL :: (r ++ NUL :: y)) := rfl
  obtain ⟨log, h4, hlog⟩ := setHeader_ok (m := m2) l hk2 hi hk.noNul hv hlen hclear
  refine ⟨[.strsep (.off i), .step (.off (i + key.length + 2)), .strsep (.off (i + key.length + 2))] ++ log, ?_, ?_⟩
  · unfold readHeader
    rw [bind_ok h1]
    dsimp only
    rw [step_bind]
    change (strsep none (.off (i + key.length + 2)) >>= _) m1 = _
    rw [bind_ok h2]
    dsimp only
    rw [bind_ok h3, h4]
    simp [hm2, hm1, Mem.note]
  · intro n hn a ha
    have hin : i ≤ n := by omega
    rcases List.mem_append.1 ha with ha | ha
    · simp only [List.mem_cons, List.not_mem_nil, or_false] at ha
      rcases ha with rfl | rfl | rfl <;> simp [Access.Allowed, Cursor.Inside, hn, hin]
    · rcases hlog a ha with rfl | rfl <;> simp [Access.Allowed, Cursor.Inside, hn, hin]

/-- **A header line without a colon**: the null cursor `strsep` leaves is stepped and then handed to `strsep`. -/
lemma readHeader_noColon {line : List UInt8} (hb : m.buf = pre ++ (line ++ NUL :: y)) (hi : i = pre.length)
    (hk : Clear (some COLON) line) :
    readHeader (.off i) l m =
      (.error .badPointer, { m with log := m.log ++ [.strsep (.off i), .step .wild, .strsep .wild] }) := by
  have h1 := strsep_nul hb hi hk
  unfold readHeader
  rw [bind_ok h1]
  dsimp only
  rw [step_bind]
  dsimp only [Cursor.next]
  rw [bind_error strsep_wild]
  simp [Mem.note]

/-- **A colon that is the last byte of the buffer**: the cursor is stepped over the terminating `NUL`. -/
lemma readHeader_over (hb : m.buf = pre ++ (key ++ [COLON, NUL])) (hi : i = pre.length)
    (hk : Clear (some COLON) key) :
    (readHeader (.off i) l m).1 = .error .overread ∧
      (readHeader (.off i) l m).2.log = m.log ++
        [.strsep (.off i), .step (.off (i + key.length + 2)), .strsep (.off (i + key.length + 2))] := by
  have h1 := strsep_found hb hi hk (by decide)
  set m1 : Mem := ({ m.note (.strsep (.off i)) with buf := pre ++ (key ++ [NUL, NUL]) } : Mem).note
    (.step (.off (i + key.length + 2))) with hm1
  have hlen : m1.buf.length ≤ i + key.length + 2 := by simp [hm1, hi]; omega
  unfold readHeader
  rw [bind_ok h1]
  dsimp only
  rw [step_bind]
  dsimp only [Cursor.next]
  have h2 : strsep none (.off (i + key.length + 1 + 1)) m1 = _ := strsep_over hlen
  rw [bind_error h2]
  simp [hm1, Mem.note]

end HeaderLine

/-! ### One round of the loop -/

section Round

variable {m : Mem} {pre tok y : List UInt8} {i : ℕ} (n : ℕ) (l : Locals)

/-- A round on an empty line ends the loop behind the byte after the `\r`. -/
lemma round_blank (hb : m.buf = pre ++ CR :: y) (hi : i = pre.length) :
    parseHeaders (n + 1) (.off i) l m = (.ok (.off (i + 2), l),
      { m with buf := pre ++ NUL :: y, log := m.log ++ [.strsep (.off i), .step (.off (i + 2)), .read (.off i)] }) := by
  have h1 := strsep_found (show m.buf = pre ++ ([] ++ CR :: y) from hb) hi (by simp) (by decide)
  simp only [parseHeaders]
  rw [bind_ok h1]
  dsimp only
  rw [step_bind]
  dsimp only [Cursor.next]
  rw [bind_ok (byteAt_cons (show _ = pre ++ NUL :: y from rfl) hi)]
  simp [Mem.note]

/-- A round at the end of the string ends the loop and leaves a wild cursor. -/
lemma round_stop (hb : m.buf = pre ++ NUL :: y) (hi : i = pre.length) :
    parseHeaders (n + 1) (.off i) l m = (.ok (.wild, l),
      { m with log := m.log ++ [.strsep (.off i), .step .wild, .read (.off i)] }) := by
  have h1 := strsep_nul (show m.buf = pre ++ ([] ++ NUL :: y) from hb) hi (clear_nil (d := some CR))
  simp only [parseHeaders]
  rw [bind_ok h1]
  dsimp only
  rw [step_bind]
  dsimp only [Cursor.next]
  rw [bind_ok (byteAt_cons (m := (m.note (.strsep (.off i))).note (.step .wild)) hb hi)]
  simp [Mem.note]

/-- A round on a line that ends in `\r` reads the header and goes on two bytes behind the line. -/
lemma round_cr (hb : m.buf = pre ++ (tok ++ CR :: y)) (hi : i = pre.length) (ht : Clear (some CR) tok)
    (hne : tok ≠ []) :
    parseHeaders (n + 1) (.off i) l m = (readHeader (.off i) l >>= parseHeaders n (.off (i + tok.length + 2)))
      { m with buf := pre ++ (tok ++ NUL :: y),
               log := m.log ++ [.strsep (.off i), .step (.off (i + tok.length + 2)), .read (.off i)] } := by
  have h1 := strsep_found hb hi ht (by decide)
  obtain ⟨b, tok, rfl⟩ := List.exists_cons_of_ne_nil hne
  have hb0 : b ≠ NUL := (clear_cons.1 ht).1.1
  simp only [parseHeaders]
  rw [bind_ok h1]
  dsimp only
  rw [step_bind]
  dsimp only [Cursor.next]
  rw [bind_ok (byteAt_cons (show _ = pre ++ b :: (tok ++ NUL :: y) from rfl) hi)]
  simp [Mem.note, hb0]

/-- A round on a line that the end of the string cuts off reads the header and goes on with a wild cursor. -/
lemma round_nul (hb : m.buf = pre ++ (tok ++ NUL :: y)) (hi : i = pre.length) (ht : Clear (some CR) tok)
    (hne : tok ≠ []) :
    parseHeaders (n + 1) (.off i) l m = (readHeader (.off i) l >>= parseHeaders n .wild)
      { m with log := m.log ++ [.strsep (.off i), .step .wild, .read (.off i)] } := by
  have h1 := strsep_nul hb hi ht
  obtain ⟨b, tok, rfl⟩ := List.exists_cons_of_ne_nil hne
  have hb0 : b ≠ NUL := (clear_cons.1 ht).1.1
  simp only [parseHeaders]
  rw [bind_ok h1]
  dsimp only
  rw [step_bind]
  dsimp only [Cursor.next]
  rw [bind_ok (byteAt_cons (m := (m.note (.strsep (.off i))).note (.step .wild)) hb hi)]
  simp [Mem.note, hb0]

lemma parseHeaders_wild : parseHeaders (n + 1) .wild l m = (.error .badPointer, m.note (.strsep .wild)) := by
  simp only [parseHeaders]
  rw [bind_error strsep_wild]

lemma parseHeaders_over (h : m.buf.length ≤ i) :
    parseHeaders (n + 1) (.off i) l m = (.error .overread, m.note (.strsep (.off i))) := by
  simp only [parseHeaders]
  rw [bind_error (strsep_over h)]

end Round

/-! ### The request line -/

/-- A name in the table of methods. -/
def Known (m : List UInt8) : Prop := ∃ e ∈ knownHttpMethods, e.1 = m

instance : DecidablePred Known := fun m => inferInstanceAs (Decidable (∃ e ∈ knownHttpMethods, e.1 = m))

lemma findMethod_unknown (m : List UInt8) : findMethod m .unknown = .unknown ↔ ¬ Known m := by
  have hall : ∀ e ∈ knownHttpMethods, e.2 ≠ .unknown := by decide
  unfold findMethod Known
  cases hf : knownHttpMethods.find? fun e => e.1 == m with
  | none =>
    rw [List.find?_eq_none] at hf
    simp only [true_iff]
    rintro ⟨e, he, h⟩
    exact hf e he (by simp [h])
  | some e =>
    have he := List.mem_of_find?_eq_some hf
    have hm : e.1 = m := by simpa using List.find?_some hf
    simp only [hall e he, false_iff, not_not]
    exact ⟨e, he, hm⟩

lemma Known.clear {m : List UInt8} (h : Known m) : Clear (some SP) m := by
  have hall : ∀ e ∈ knownHttpMethods, Clear (some SP) e.1 := by decide
  obtain ⟨e, he, rfl⟩ := h
  exact hall e he

section RequestLine

variable {m : Mem} {pre p v y : List UInt8} {i : ℕ} (req : HttpRequest)

/-- A request line that is closed by `\r`: the header loop starts two bytes behind the version. -/
lemma parseAfterMethod_line (hb : m.buf = pre ++ (p ++ SP :: (v ++ CR :: y))) (hi : i = pre.length)
    (hp : Clear (some SP) p) (hv : Clear (some CR) v) :
    parseAfterMethod req (.off i) m = parseHeaders maxHeaders (.off (i + p.length + v.length + 3))
      { req := { req with path := .off i } }
      { m with buf := pre ++ (p ++ NUL :: (v ++ NUL :: y)),
               log := m.log ++ [.strsep (.off i), .strsep (.off (i + p.length + 1)),
                 .step (.off (i + p.length + v.length + 3))] } := by
  have h1 := strsep_found hb hi hp (by decide)
  set m1 : Mem := { m.note (.strsep (.off i)) with buf := pre ++ (p ++ NUL :: (v ++ CR :: y)) } with hm1
  have hb1 : m1.buf = (pre ++ p ++ [NUL]) ++ (v ++ CR :: y) := by simp [hm1]
  have h2 := strsep_found hb1 (i := i + p.length + 1) (by simp [hi]; omega) hv (by decide)
  have hend : i + p.length + 1 + v.length + 1 + 1 = i + p.length + v.length + 3 := by omega
  unfold parseAfterMethod
  rw [bind_ok h1]
  dsimp only
  rw [bind_ok h2]
  dsimp only
  rw [step_bind]
  dsimp only [Cursor.next]
  rw [hend]
  simp [hm1, Mem.note]

/-- Behind a method that no space closes, `strsep` gets the null cursor and the header loop a wild one. -/
lemma parseAfterMethod_null : parseAfterMethod req .null m =
    (.error .badPointer, { m with log := m.log ++ [.strsep .null, .strsep .null, .step .wild, .strsep .wild] }) := by
  unfold parseAfterMethod
  rw [bind_ok strsep_null]
  dsimp only
  rw [bind_ok strsep_null]
  dsimp only
  rw [step_bind]
  dsimp only [Cursor.next]
  rw [show maxHeaders = 127 + 1 from rfl, parseHeaders_wild]
  simp [Mem.note]

/-- A path that no space closes: the header loop starts with a wild cursor. -/
lemma parseAfterMethod_noSpace (hb : m.buf = pre ++ (p ++ NUL :: y)) (hi : i = pre.length)
    (hp : Clear (some SP) p) : parseAfterMethod req (.off i) m =
      (.error .badPointer,
        { m with log := m.log ++ [.strsep (.off i), .strsep .null, .step .wild, .strsep .wild] }) := by
  have h1 := strsep_nul hb hi hp
  unfold parseAfterMethod
  rw [bind_ok h1]
  dsimp only
  rw [bind_ok strsep_null]
  dsimp only
  rw [step_bind]
  dsimp only [Cursor.next]
  rw [show maxHeaders = 127 + 1 from rfl, parseHeaders_wild]
  simp [Mem.note]

/-- A version that no `\r` closes: the header loop starts with a wild cursor. -/
lemma parseAfterMethod_noReturn (hb : m.buf = pre ++ (p ++ SP :: (v ++ NUL :: y))) (hi : i = pre.length)
    (hp : Clear (some SP) p) (hv : Clear (some CR) v) : parseAfterMethod req (.off i) m =
      (.error .badPointer,
        { m with buf := pre ++ (p ++ NUL :: (v ++ NUL :: y)),
                 log := m.log ++ [.strsep (.off i), .strsep (.off (i + p.length + 1)), .step .wild,
                   .strsep .wild] }) := by
  have h1 := strsep_found hb hi hp (by decide)
  set m1 : Mem := { m.note (.strsep (.off i)) with buf := pre ++ (p ++ NUL :: (v ++ NUL :: y)) } with hm1
  have hb1 : m1.buf = (pre ++ p ++ [NUL]) ++ (v ++ NUL :: y) := by simp [hm1]
  have h2 := strsep_nul hb1 (i := i + p.length + 1) (by simp [hi]; omega) hv
  unfold parseAfterMethod
  rw [bind_ok h1]
  dsimp only
  rw [bind_ok h2]
  dsimp only
  rw [step_bind]
  dsimp only [Cursor.next]
  rw [show maxHeaders = 127 + 1 from rfl, parseHeaders_wild]
  simp [hm1, Mem.note]

/-- **The handler on a method token**: the early return, or the rest of the request. -/
lemma parseRequest_token {req : HttpRequest} {m0 m1 : Mem} {tok t : List UInt8} {c : Cursor}
    (hs : strsep (some SP) (.off 0) m0 = (.ok (.off 0, c), m1)) (hb : m1.buf = [] ++ (tok ++ NUL :: t))
    (htok : Clear none tok) (hreq : req.method = .unknown) :
    parseRequest req m0 =
      if Known tok then (parseAfterMethod { req with method := findMethod tok .unknown } c >>= fun r => pure (some r))
        (m1.note (.string (.off 0)))
      else (.ok none, m1.note (.string (.off 0))) := by
  unfold parseRequest
  rw [bind_ok hs]
  dsimp only
  rw [bind_ok (cString_nul hb (show 0 = [].length from rfl) htok), hreq]
  by_cases hk : Known tok
  · have hne : ¬ findMethod tok .unknown = .unknown := by rw [findMethod_unknown]; exact not_not.2 hk
    simp only [hk, hne, if_true, if_false]
  · simp only [hk, (findMethod_unknown tok).2 hk, if_true, if_false]
    rfl

end RequestLine

/-- The memory and the outcome of a program whose last step is a `pure`. -/
lemma bind_pure_apply {α β : Type} (x : Handler α) (f : α → β) (m : Mem) :
    (x >>= fun a => pure (f a)) m = ((x m).1.map f, (x m).2) := by
  rcases hr : x m with ⟨a | a, m'⟩
  · rw [bind_error hr]
    rfl
  · rw [bind_ok hr]
    rfl

/-- A program whose last step wraps its result ends with one, or with a fault. -/
lemma isSome_of_map {ε α : Type} {x : Except ε α} {res : Option α} (h : x.map some = .ok res) : res.isSome = true := by
  cases x with
  | error e => cases h
  | ok a =>
    cases h
    rfl

/-- **The early return** is taken on an unknown method, and on no other. -/
lemma isSome_iff_known {req : HttpRequest} {m0 m : Mem} {res : Option (Cursor × Locals)} (hreq : req.method = .unknown)
    (h : parseRequest req m0 = (.ok res, m)) : res.isSome = true ↔ Known (token (some SP) m0.buf) := by
  have hsplit : ∀ {tok t : List UInt8} {c : Cursor} {m1 : Mem}, strsep (some SP) (.off 0) m0 = (.ok (.off 0, c), m1) →
      m1.buf = [] ++ (tok ++ NUL :: t) → Clear none tok → (res.isSome = true ↔ Known tok) := by
    intro tok t c m1 hs hb htok
    rw [parseRequest_token hs hb htok hreq] at h
    by_cases hk : Known tok
    · rw [if_pos hk, bind_pure_apply] at h
      exact iff_of_true (isSome_of_map (Prod.mk.inj h).1) hk
    · rw [if_neg hk] at h
      obtain rfl : none = res := Except.ok.inj (Prod.mk.inj h).1
      exact iff_of_false (by simp) hk
  obtain ⟨tok, htok, ⟨t, hb⟩ | ⟨t, hb⟩ | hb⟩ := scan_cases SP m0.buf
  · rw [hb, token_append htok (stops_delim SP t)]
    exact hsplit (strsep_found (show m0.buf = [] ++ (tok ++ SP :: t) from hb) rfl htok (by decide)) rfl htok.noNul
  · rw [hb, token_append htok (stops_nul _ t)]
    exact hsplit (strsep_nul (show m0.buf = [] ++ (tok ++ NUL :: t) from hb) rfl htok) hb htok.noNul
  · -- no `NUL` ends the buffer
    have hover : strsep (some SP) (.off 0) m0 = (.error .overread, m0.note (.strsep (.off 0))) := by
      have htoken : token (some SP) m0.buf = m0.buf := by
        have := token_append (t := []) (hb ▸ htok : Clear (some SP) m0.buf) (by simp [Stops])
        simpa using this
      simp [strsep, htoken]
    unfold parseRequest at h
    rw [bind_error hover] at h
    simp at h

end Wrensong.Http
