import Wrensong.Http.Rounds

/-!
# Requests as a client writes them

A `Message` is a request line, header lines and a body; the structures carry what makes their parts lines (no `\r` in
a version or a header line) and what cuts them (no space in the method and the path, no `:` in a name).
`Message.wire` is the text sent. A header line is `Plain` when the handler takes its value from the line itself.

`Fields` is what a worker makes of a request, with strings in the place of cursors. `Fields.set` is the `if` chain on
strings, and `Locals.fieldsIn` reads the fields of the handler's locals off the part of the buffer it is done with.
`headers_run` and `request_run` say how the handler runs over header lines and over a whole request line.
-/

namespace Wrensong.Http

open Wrensong.Lib.Bytes

/-! ### Messages -/

/-- A header line: a name, a colon and the text behind it. -/
structure HeaderLine where
  name : List UInt8
  text : List UInt8
  name_noColon : COLON ∉ name
  name_line : CR ∉ name
  text_line : CR ∉ text

/-- The line as it is sent. -/
def HeaderLine.line (h : HeaderLine) : List UInt8 := h.name ++ COLON :: (h.text ++ [CR, LF])

/-- The line after the handler has read it. -/
def HeaderLine.done (h : HeaderLine) : List UInt8 := h.name ++ NUL :: (h.text ++ [NUL, LF])

/-- A line without `NUL` that has some text: the handler takes a value from it without looking at another line. -/
def HeaderLine.Plain (h : HeaderLine) : Prop := NUL ∉ h.name ∧ NUL ∉ h.text ∧ h.text ≠ []

/-- A request: the request line, the header lines, and what follows the blank line. -/
structure Message where
  method : List UInt8
  path : List UInt8
  version : List UInt8
  headers : List HeaderLine
  body : List UInt8
  method_noSpace : SP ∉ method
  path_noSpace : SP ∉ path
  version_line : CR ∉ version

/-- The header lines and the blank line. -/
def Message.block (q : Message) : List UInt8 := q.headers.flatMap HeaderLine.line ++ [CR, LF]

/-- The text of a request. -/
def Message.wire (q : Message) : List UInt8 :=
  q.method ++ SP :: (q.path ++ SP :: (q.version ++ CR :: LF :: (q.block ++ q.body)))

lemma HeaderLine.Plain.name_clear {h : HeaderLine} (hp : h.Plain) : Clear (some COLON) h.name :=
  clear_of_notMem hp.1 h.name_noColon

lemma HeaderLine.Plain.text_clear {h : HeaderLine} (hp : h.Plain) : Clear (some CR) h.text :=
  clear_of_notMem hp.2.1 h.text_line

lemma HeaderLine.Plain.line_clear {h : HeaderLine} (hp : h.Plain) : Clear (some CR) (h.name ++ COLON :: h.text) := by
  rw [clear_append, clear_cons]
  exact ⟨clear_of_notMem hp.1 h.name_line, ⟨by decide, by decide⟩, hp.text_clear⟩

lemma HeaderLine.length_done (h : HeaderLine) : h.done.length = h.line.length := by
  simp [HeaderLine.done, HeaderLine.line]

/-! ### What a worker makes of a request -/

/-- The parsed request, with strings in the place of cursors. -/
structure Fields where
  method : HttpMethodTyp
  path : Option (List UInt8)
  host : Option (List UInt8) := none
  command : Option (List UInt8) := none
  contentLength : ℤ := 0
  closing : Bool := false
  deriving DecidableEq, Repr

/-- The `if` chain on the strings of a header. -/
def Fields.set (f : Fields) (k v : List UInt8) : Fields :=
  if strncmpEq k (bytes "Content-Length") 14 then { f with contentLength := atoi v }
  else if strncmpEq k (bytes "Host") 4 then { f with host := some v }
  else if strncmpEq k (bytes "Command") 12 then { f with command := some v }
  else if strncmpEq k (bytes "Connection") 10 then
    if strncmpEq v (bytes "close") 5 then { f with closing := true } else f
  else f

/-- The string a cursor names in a block. -/
def strAt (b : List UInt8) : Cursor → Option (List UInt8)
  | .off i => some (cstr (b.drop i))
  | _ => none

/-- The fields of the handler's locals, read off the block `b`. -/
def Locals.fieldsIn (l : Locals) (b : List UInt8) : Fields :=
  { method := l.req.method, path := strAt b l.req.path, host := strAt b l.req.host,
    command := strAt b l.req.command, contentLength := l.req.contentLength, closing := l.closing }

/-- The cursor is null, or the string at it ends inside the block. -/
def EndsIn (b : List UInt8) : Cursor → Prop
  | .null => True
  | .wild => False
  | .off i => NUL ∈ b.drop i

/-- All strings of the locals end inside the block. -/
def Locals.Settled (l : Locals) (b : List UInt8) : Prop :=
  EndsIn b l.req.path ∧ EndsIn b l.req.host ∧ EndsIn b l.req.command

section Settled

variable {b : List UInt8} {c : Cursor} {l : Locals}

lemma lt_of_mem_drop {i : ℕ} (h : NUL ∈ b.drop i) : i < b.length := by
  by_contra hi
  rw [List.drop_eq_nil_of_le (by omega)] at h
  simp at h

/-- A string that ends inside a block stays the same when the block goes on. -/
lemma strAt_append (h : EndsIn b c) (t : List UInt8) : strAt (b ++ t) c = strAt b c := by
  cases c with
  | null => rfl
  | wild => rfl
  | off i =>
    have hi := lt_of_mem_drop h
    simp only [strAt]
    rw [List.drop_append_of_le_length (by omega), cstr_append_of_mem h]

lemma EndsIn.append (h : EndsIn b c) (t : List UInt8) : EndsIn (b ++ t) c := by
  cases c with
  | null => trivial
  | wild => exact h
  | off i =>
    have hi := lt_of_mem_drop h
    simp only [EndsIn]
    rw [List.drop_append_of_le_length (by omega)]
    exact List.mem_append_left _ h

lemma Locals.Settled.append (h : l.Settled b) (t : List UInt8) : l.Settled (b ++ t) :=
  ⟨h.1.append t, h.2.1.append t, h.2.2.append t⟩

lemma Locals.Settled.fieldsIn_append (h : l.Settled b) (t : List UInt8) : l.fieldsIn (b ++ t) = l.fieldsIn b := by
  simp only [Locals.fieldsIn, strAt_append h.1, strAt_append h.2.1, strAt_append h.2.2]

/-- **Storing a header whose value ends inside the block** is `Fields.set`. -/
lemma Locals.Settled.set (h : l.Settled b) (k : List UInt8) {v : List UInt8} (hc : EndsIn b c)
    (hv : strAt b c = some v) : (l.set k v c).Settled b ∧ (l.set k v c).fieldsIn b = (l.fieldsIn b).set k v := by
  obtain ⟨h1, h2, h3⟩ := h
  unfold Locals.set Fields.set
  split_ifs
  · exact ⟨⟨h1, h2, h3⟩, rfl⟩
  · exact ⟨⟨h1, hc, h3⟩, by simp [Locals.fieldsIn, hv]⟩
  · exact ⟨⟨h1, h2, hc⟩, by simp [Locals.fieldsIn, hv]⟩
  · exact ⟨⟨h1, h2, h3⟩, rfl⟩
  · exact ⟨⟨h1, h2, h3⟩, rfl⟩
  · exact ⟨⟨h1, h2, h3⟩, rfl⟩

/-- **Storing the value of a header line** that the handler has cut at the colon and at its end. -/
lemma Locals.Settled.setValue (h : l.Settled b) {k r t : List UInt8} {j : ℕ} (hr : r ≠ []) (hc : Clear none r)
    (hj : j = b.length + k.length + 2) :
    (l.set k r.tail (.off j)).Settled (b ++ (k ++ NUL :: (r ++ NUL :: t))) ∧
      (l.set k r.tail (.off j)).fieldsIn (b ++ (k ++ NUL :: (r ++ NUL :: t))) = (l.fieldsIn b).set k r.tail := by
  obtain ⟨x, r, rfl⟩ := List.exists_cons_of_ne_nil hr
  have hdrop : (b ++ (k ++ NUL :: (x :: r ++ NUL :: t))).drop j = r ++ NUL :: t := by
    rw [show b ++ (k ++ NUL :: (x :: r ++ NUL :: t)) = (b ++ k ++ [NUL, x]) ++ (r ++ NUL :: t) by simp]
    exact List.drop_left' (by simp [hj]; omega)
  have hend : EndsIn (b ++ (k ++ NUL :: (x :: r ++ NUL :: t))) (.off j) := by simp only [EndsIn, hdrop]; simp
  have hval : strAt (b ++ (k ++ NUL :: (x :: r ++ NUL :: t))) (.off j) = some r := by
    rw [strAt, hdrop, cstr_append_nul (clear_cons.1 hc).2]
  rw [← h.fieldsIn_append (k ++ NUL :: (x :: r ++ NUL :: t))]
  exact (h.append _).set k hend hval

end Settled

/-! ### Running over header lines -/

/-- Storing the value of a plain header line. -/
lemma Locals.Settled.setLine {l : Locals} {pre : List UInt8} {i : ℕ} (hl : l.Settled pre) {h : HeaderLine} (hp : h.Plain)
    (hi : i = pre.length) :
    (l.set h.name h.text.tail (.off (i + h.name.length + 2))).Settled (pre ++ h.done) ∧
      (l.set h.name h.text.tail (.off (i + h.name.length + 2))).fieldsIn (pre ++ h.done) =
        (l.fieldsIn pre).set h.name h.text.tail :=
  hl.setValue (t := [LF]) hp.2.2 hp.text_clear.noNul (by rw [hi])

/-- One round of the loop on a plain header line. -/
lemma round_plain {m : Mem} {pre rest : List UInt8} {i : ℕ} (n : ℕ) (l : Locals) {h : HeaderLine} (hp : h.Plain)
    (hb : m.buf = pre ++ (h.line ++ rest)) (hi : i = pre.length) :
    ∃ log, parseHeaders (n + 1) (.off i) l m =
        parseHeaders n (.off (i + h.line.length)) (l.set h.name h.text.tail (.off (i + h.name.length + 2)))
          { buf := pre ++ h.done ++ rest, log := m.log ++ log, values := m.values ++ [h.text.tail] } ∧
      ∀ N, i + h.line.length ≤ N → ∀ a ∈ log, a.Allowed N := by
  have hlen : h.line.length = (h.name ++ COLON :: h.text).length + 2 := by simp [HeaderLine.line]; omega
  have hb1 : m.buf = pre ++ ((h.name ++ COLON :: h.text) ++ CR :: (LF :: rest)) := by
    rw [hb]
    simp [HeaderLine.line]
  have hend : i + (h.name ++ COLON :: h.text).length + 2 = i + h.line.length := by omega
  rw [round_cr n l hb1 hi hp.line_clear (by simp), hend]
  set m1 : Mem := { m with
    buf := pre ++ ((h.name ++ COLON :: h.text) ++ NUL :: (LF :: rest)),
    log := m.log ++ [.strsep (.off i), .step (.off (i + h.line.length)), .read (.off i)] } with hm1
  obtain ⟨log, hread, hlog⟩ := readHeader_ok (m := m1) l
    (show _ = pre ++ (h.name ++ COLON :: (h.text ++ NUL :: (LF :: rest))) by simp [hm1]) hi hp.name_clear hp.text_clear.noNul
    (fun e => absurd e hp.2.2)
  refine ⟨[.strsep (.off i), .step (.off (i + h.line.length)), .read (.off i)] ++ log, ?_, ?_⟩
  · rw [bind_ok hread]
    simp [hm1, valueOf, hp.2.2, HeaderLine.done]
  · intro N hN
    rw [List.forall_mem_append]
    refine ⟨?_, hlog N (by simp at hlen; omega)⟩
    simp [Access.Allowed, Cursor.Inside]
    omega

/-- **The loop over plain header lines**: after as many rounds as there are lines, the cursor is behind them and the
locals hold their names and values, in order. -/
theorem headers_run (hs : List HeaderLine) (hp : ∀ h ∈ hs, h.Plain) {m : Mem} {pre rest : List UInt8} {i : ℕ} (n : ℕ)
    {l : Locals} (hl : l.Settled pre) (hb : m.buf = pre ++ (hs.flatMap HeaderLine.line ++ rest))
    (hi : i = pre.length) :
    ∃ l' pre' log, pre'.length = pre.length + (hs.flatMap HeaderLine.line).length ∧ l'.Settled pre' ∧
      l'.fieldsIn pre' = hs.foldl (fun f h => f.set h.name h.text.tail) (l.fieldsIn pre) ∧
      parseHeaders (hs.length + n) (.off i) l m = parseHeaders n (.off pre'.length) l'
        { buf := pre' ++ rest, log := m.log ++ log, values := m.values ++ hs.map fun h => h.text.tail } ∧
      ∀ N, pre'.length ≤ N → ∀ a ∈ log, a.Allowed N := by
  induction hs generalizing pre m l i with
  | nil =>
    refine ⟨l, pre, [], by simp, hl, rfl, ?_, by simp⟩
    subst hi
    simp only [List.flatMap_nil, List.nil_append] at hb
    simp only [List.length_nil, Nat.zero_add, List.append_nil, List.map_nil, ← hb]
  | cons h hs ih =>
    have hh := hp h (List.mem_cons_self ..)
    have hb1 : m.buf = pre ++ (h.line ++ (hs.flatMap HeaderLine.line ++ rest)) := by rw [hb]; simp
    obtain ⟨log, hround, hlog⟩ := round_plain (hs.length + n) l hh hb1 hi
    obtain ⟨hset, hfields⟩ := hl.setLine hh hi
    obtain ⟨l', pre', log', h1, h2, h3, h4, h5⟩ := ih (fun x hx => hp x (List.mem_cons_of_mem _ hx)) hset
      (i := i + h.line.length)
      (m := ⟨pre ++ h.done ++ (hs.flatMap HeaderLine.line ++ rest), m.log ++ log, m.values ++ [h.text.tail]⟩)
      rfl (by simp [hi, h.length_done])
    refine ⟨l', pre', log ++ log', ?_, h2, ?_, ?_, ?_⟩
    · rw [h1]
      simp [h.length_done]
      omega
    · rw [h3, List.foldl_cons, hfields]
    · rw [List.length_cons, show hs.length + 1 + n = hs.length + n + 1 by omega, hround, h4]
      simp
    · intro N hN
      rw [List.forall_mem_append]
      refine ⟨hlog N ?_, h5 N hN⟩
      simp [h.length_done] at h1
      omega

/-! ### Running over the request line -/

/-- **The handler over a request line**: the cursor is behind its line feed and the locals hold the method and the path. -/
theorem request_run {m p v : List UInt8} (rest : List UInt8) (hm : Known m) (hp : Clear (some SP) p)
    (hv : Clear (some CR) v) (b : Option ℕ) (k : ℕ) :
    ∃ l pre log, pre.length = m.length + p.length + v.length + 4 ∧ l.Settled pre ∧
      l.fieldsIn pre = { method := findMethod m .unknown, path := some p } ∧
      parseRequest { buffer := b, bufferLen := k }
          (.ofReceived (m ++ SP :: (p ++ SP :: (v ++ CR :: LF :: rest)))) =
        (parseHeaders maxHeaders (.off pre.length) l >>= fun r => pure (some r))
          { buf := pre ++ (rest ++ [NUL]), log := log } ∧
      ∀ N, pre.length ≤ N → ∀ a ∈ log, a.Allowed N := by
  set pre : List UInt8 := m ++ NUL :: (p ++ NUL :: (v ++ [NUL, LF])) with hpre
  have hlen : pre.length = m.length + p.length + v.length + 4 := by simp [hpre]; omega
  have hdrop : pre.drop (m.length + 1) = p ++ NUL :: (v ++ [NUL, LF]) := by
    rw [show pre = (m ++ [NUL]) ++ (p ++ NUL :: (v ++ [NUL, LF])) by simp [hpre], List.drop_left' (by simp)]
  have hsep := strsep_found
    (show (Mem.ofReceived (m ++ SP :: (p ++ SP :: (v ++ CR :: LF :: rest)))).buf =
      [] ++ (m ++ SP :: (p ++ SP :: (v ++ CR :: LF :: rest) ++ [NUL])) by simp [Mem.ofReceived])
    (show 0 = [].length from rfl) hm.clear (by decide)
  set m1 : Mem := Mem.note { buf := [] ++ (m ++ NUL :: (p ++ SP :: (v ++ CR :: LF :: rest) ++ [NUL])),
                             log := [.strsep (.off 0)] } (.string (.off 0)) with hm1
  have hline := parseAfterMethod_line { method := findMethod m .unknown, buffer := b, bufferLen := k }
    (show m1.buf = (m ++ [NUL]) ++ (p ++ SP :: (v ++ CR :: (LF :: (rest ++ [NUL])))) by simp [hm1])
    (show m.length + 1 = (m ++ [NUL]).length by simp) hp hv
  refine ⟨{ req := { method := findMethod m .unknown, path := .off (m.length + 1), buffer := b, bufferLen := k } },
    pre, [.strsep (.off 0), .string (.off 0), .strsep (.off (m.length + 1)), .strsep (.off (m.length + 1 + p.length + 1)),
      .step (.off pre.length)], hlen, ?_, ?_, ?_, ?_⟩
  · simp [Locals.Settled, EndsIn, hdrop]
  · simp [Locals.fieldsIn, strAt, hdrop, cstr_append_nul hp.noNul]
  · rw [parseRequest_token hsep rfl hm.clear.noNul rfl, if_pos hm]
    refine bind_eq (Eq.trans ?_ (hline.trans ?_)) _
    · simp [hm1, Mem.ofReceived, Mem.note]
    · rw [show m.length + 1 + p.length + v.length + 3 = pre.length by omega]
      simp [hm1, hpre, Mem.note]
  · intro N hN
    simp [Access.Allowed, Cursor.Inside]
    omega

end Wrensong.Http
