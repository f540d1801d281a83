import Wrensong.Ini.Events

/-!
# The lines of a configuration, without the buffer

`Lex` is the state of the reader with the line as a list of bytes in the place of the block: it has no size, nothing has
to be grown and no store can fail. `Lex.event` is what a character completes: a section header, an entry or an error.
`Lex.Fits` says that the block of the reader has room for every store, with the size the block has by then. `Counted` says
that the counters of the reader stay in their types, and `InRange` that the sizes of the arrays of its table do as well.

`readChar_fits` and `readChar_over` connect the two: on a character that fits, the reader does what `Lex` does and puts
out its event; on one that does not, it stores outside the block. `iniTableRead_eq` and `iniRead_eq` say so for whole
inputs that are in range.
-/

namespace Wrensong.Ini

open Wrensong.Lib Wrensong.Lib.Bytes

/-! ### The lexer -/

/-- The state of the reader, with the line so far in the place of its block. -/
structure Lex where
  state : LineState := .Section
  inComment : Bool := false
  text : List UInt8 := []
  spaces : ℕ := 0
  value : ℕ := 0
  deriving DecidableEq

/-- Behind a line or a section header. -/
def Lex.lineStart : Lex := { state := .Key }

/-- Where the string starts that a character would be appended to. -/
def Lex.start (l : Lex) : ℕ := if l.state = .Value then l.value else 0

/-- A space here would be a leading one. -/
def Lex.AtStart (l : Lex) : Prop := (l.text.drop l.start).headD NUL = NUL

instance : DecidablePred Lex.AtStart := fun l => by unfold Lex.AtStart; infer_instance

/-- Appends a character, behind the spaces that were put off. -/
def Lex.put (l : Lex) (c : UInt8) : Lex := { l with text := l.text ++ List.replicate l.spaces SP ++ [c], spaces := 0 }

def Lex.next (l : Lex) (c : UInt8) : Lex :=
  if l.inComment then
    if c = LF then { l with inComment := false } else { l with text := l.text ++ [c] }
  else if c = SP then
    if l.AtStart then l else { l with spaces := l.spaces + 1 }
  else if c = SEMICOLON ∨ c = HASH then
    if l.state = .Value then { l with text := l.text ++ [c] }
    else { l with state := .Comment, text := l.text ++ [c], inComment := true }
  else if c = CR then l
  else if c = LF then .lineStart
  else if c = LBRACKET then { l with state := .Section }
  else if c = RBRACKET then .lineStart
  else if (c = EQUALS ∨ c = COLON) ∧ l.state = .Key then
    { l with state := .Value, text := l.text ++ [NUL], spaces := 0, value := l.text.length + 1 }
  else l.put c

/-- What the newline completes. -/
def Lex.lineEvent (l : Lex) : Option Event :=
  match l.state with
  | .Value => some (.entry (.ofBlock l.text) (.ofBlock (l.text.drop l.value)))
  | .Comment => some (.entry (.ofBlock l.text) (.ofBlock []))
  | .Section => some (.error (missingBracket (.ofBlock l.text)))
  | .Key => if l.text = [] then none else some (.error (missingEquals (.ofBlock l.text)))

/-- What a character completes. -/
def Lex.event (l : Lex) (c : UInt8) : Option Event :=
  if l.inComment then none
  else if c = LF then l.lineEvent
  else if c = RBRACKET then some (.header (.ofBlock l.text))
  else none

/-- The state behind a text. -/
def Lex.after (l : Lex) (s : List UInt8) : Lex := s.foldl Lex.next l

/-- What a text completes. -/
def Lex.events : Lex → List UInt8 → List Event
  | _, [] => []
  | l, c :: s => (l.event c).toList ++ (l.next c).events s

/-! ### The cases of a character outside a comment -/

section Next

variable {l : Lex} {c : UInt8}

lemma next_space (hl : l.inComment = false) :
    l.next SP = if l.AtStart then l else { l with spaces := l.spaces + 1 } := by
  rw [Lex.next, if_neg (by simp [hl]), if_pos rfl]

lemma next_mark (hl : l.inComment = false) (hv : l.state ≠ .Value) (hc : c = SEMICOLON ∨ c = HASH) :
    l.next c = { l with state := .Comment, text := l.text ++ [c], inComment := true } := by
  have hsp : c ≠ SP := by rcases hc with rfl | rfl <;> decide
  rw [Lex.next, if_neg (by simp [hl]), if_neg hsp, if_pos hc, if_neg hv]

lemma next_mark_value (hl : l.inComment = false) (hv : l.state = .Value) (hc : c = SEMICOLON ∨ c = HASH) :
    l.next c = { l with text := l.text ++ [c] } := by
  have hsp : c ≠ SP := by rcases hc with rfl | rfl <;> decide
  rw [Lex.next, if_neg (by simp [hl]), if_neg hsp, if_pos hc, if_pos hv]

lemma next_return (hl : l.inComment = false) : l.next CR = l := by
  rw [Lex.next, if_neg (by simp [hl])]
  rfl

lemma next_openBracket (hl : l.inComment = false) : l.next LBRACKET = { l with state := .Section } := by
  rw [Lex.next, if_neg (by simp [hl])]
  rfl

lemma next_equals (hl : l.inComment = false) (hk : l.state = .Key) (hc : c = EQUALS ∨ c = COLON) :
    l.next c = { l with state := .Value, text := l.text ++ [NUL], spaces := 0, value := l.text.length + 1 } := by
  rw [Lex.next, if_neg (by simp [hl])]
  rcases hc with rfl | rfl
  · simp only [hk]
    rfl
  · simp only [hk]
    rfl

/-- Any other character goes behind the spaces that were put off. -/
lemma next_put (hl : l.inComment = false) (hsp : c ≠ SP) (hm : ¬ (c = SEMICOLON ∨ c = HASH)) (hcr : c ≠ CR)
    (hlf : c ≠ LF) (hlb : c ≠ LBRACKET) (hrb : c ≠ RBRACKET) (heq : ¬ ((c = EQUALS ∨ c = COLON) ∧ l.state = .Key)) :
    l.next c = l.put c := by
  rw [Lex.next, if_neg (by simp [hl]), if_neg hsp, if_neg hm, if_neg hcr, if_neg hlf, if_neg hlb, if_neg hrb, if_neg heq]

lemma next_lineEnd (hl : l.inComment = false) : l.next LF = .lineStart ∧ l.event LF = l.lineEvent := by
  constructor
  · rw [Lex.next, if_neg (by simp [hl])]
    rfl
  · rw [Lex.event, if_neg (by simp [hl])]
    rfl

lemma next_headerEnd (hl : l.inComment = false) :
    l.next RBRACKET = .lineStart ∧ l.event RBRACKET = some (.header (.ofBlock l.text)) := by
  constructor
  · rw [Lex.next, if_neg (by simp [hl])]
    rfl
  · rw [Lex.event, if_neg (by simp [hl]), if_neg (by decide), if_pos rfl]

/-- Nothing is completed but at the end of a line or of a section header. -/
lemma event_eq_none (hl : l.inComment = false) (hlf : c ≠ LF) (hrb : c ≠ RBRACKET) : l.event c = none := by
  rw [Lex.event, if_neg (by simp [hl]), if_neg hlf, if_neg hrb]

/-- What a character outside a comment makes of the line, and what it completes. -/
inductive Turn (l : Lex) : UInt8 → Lex → Option Event → Prop
  | lead (hs : l.AtStart) : Turn l SP l none
  | space (hs : ¬ l.AtStart) : Turn l SP { l with spaces := l.spaces + 1 } none
  | mark {c : UInt8} (hc : c = SEMICOLON ∨ c = HASH) (hv : l.state ≠ .Value) :
    Turn l c { l with state := .Comment, text := l.text ++ [c], inComment := true } none
  | markValue {c : UInt8} (hc : c = SEMICOLON ∨ c = HASH) (hv : l.state = .Value) :
    Turn l c { l with text := l.text ++ [c] } none
  | carriage : Turn l CR l none
  | lineEnd : Turn l LF .lineStart l.lineEvent
  | openBracket : Turn l LBRACKET { l with state := .Section } none
  | headerEnd : Turn l RBRACKET .lineStart (some (.header (.ofBlock l.text)))
  | equals {c : UInt8} (hc : c = EQUALS ∨ c = COLON) (hk : l.state = .Key) :
    Turn l c { l with state := .Value, text := l.text ++ [NUL], spaces := 0, value := l.text.length + 1 } none
  | put {c : UInt8} (hsp : c ≠ SP) (hm : ¬ (c = SEMICOLON ∨ c = HASH)) (hcr : c ≠ CR) (hlf : c ≠ LF)
    (hlb : c ≠ LBRACKET) (hrb : c ≠ RBRACKET) (heq : ¬ ((c = EQUALS ∨ c = COLON) ∧ l.state = .Key)) :
    Turn l c (l.put c) none

/-- **All that a character outside a comment can do.** -/
lemma turn (hl : l.inComment = false) (c : UInt8) : Turn l c (l.next c) (l.event c) := by
  by_cases hlf : c = LF
  · rw [hlf, (next_lineEnd hl).1, (next_lineEnd hl).2]
    exact .lineEnd
  by_cases hrb : c = RBRACKET
  · rw [hrb, (next_headerEnd hl).1, (next_headerEnd hl).2]
    exact .headerEnd
  rw [event_eq_none hl hlf hrb]
  by_cases hsp : c = SP
  · rw [hsp, next_space hl]
    split_ifs with hs
    · exact .lead hs
    · exact .space hs
  by_cases hm : c = SEMICOLON ∨ c = HASH
  · by_cases hv : l.state = .Value
    · rw [next_mark_value hl hv hm]
      exact .markValue hm hv
    · rw [next_mark hl hv hm]
      exact .mark hm hv
  by_cases hcr : c = CR
  · rw [hcr, next_return hl]
    exact .carriage
  by_cases hlb : c = LBRACKET
  · rw [hlb, next_openBracket hl]
    exact .openBracket
  by_cases heq : (c = EQUALS ∨ c = COLON) ∧ l.state = .Key
  · rw [next_equals hl heq.2 heq.1]
    exact .equals heq.1 heq.2
  · rw [next_put hl hsp hm hcr hlf hlb hrb heq]
    exact .put hsp hm hcr hlf hlb hrb heq

end Next

/-! ### Room in the block -/

/-- The size of the block when the character is stored, if it was `n`. -/
def Lex.room (l : Lex) (n : ℕ) : ℕ := if l.inComment = false ∧ n - 2 < l.text.length then n + 128 else n

lemma le_room {l : Lex} (n : ℕ) : n ≤ l.room n := by
  unfold Lex.room
  split_ifs <;> omega

/-- Every store of the reader on a text is inside the block, which has the size `n` at first. -/
def Lex.Fits : Lex → ℕ → List UInt8 → Prop
  | _, _, [] => True
  | l, n, c :: s => (l.next c).text.length ≤ l.room n ∧ (l.next c).Fits (l.room n) s

instance Lex.Fits.decidable : ∀ (l : Lex) (n : ℕ) (s : List UInt8), Decidable (l.Fits n s)
  | _, _, [] => inferInstanceAs (Decidable True)
  | l, n, c :: s =>
    have : Decidable ((l.next c).Fits (l.room n) s) := Lex.Fits.decidable _ _ s
    inferInstanceAs (Decidable (_ ∧ _))

/-- The size of the block behind a text. -/
def Lex.roomAfter : Lex → ℕ → List UInt8 → ℕ
  | _, n, [] => n
  | l, n, c :: s => (l.next c).roomAfter (l.room n) s

/-! ### The counters -/

/-- The counters of the reader hold the length of the line and the spaces that were put off. -/
def Lex.Small (l : Lex) : Prop := l.text.length < 2 ^ 32 ∧ l.spaces ≤ INT_MAX

instance : DecidablePred Lex.Small := fun _ => inferInstanceAs (Decidable (_ ∧ _))

/-- They do so behind each character of a text. -/
def Lex.Counted : Lex → List UInt8 → Prop
  | _, [] => True
  | l, c :: s => (l.next c).Small ∧ (l.next c).Counted s

instance Lex.Counted.decidable : ∀ (l : Lex) (s : List UInt8), Decidable (l.Counted s)
  | _, [] => inferInstanceAs (Decidable True)
  | l, c :: s =>
    have : Decidable ((l.next c).Counted s) := Lex.Counted.decidable _ s
    inferInstanceAs (Decidable (_ ∧ _))

/-- What a text completes from the start of a reader. -/
def events (s : List UInt8) : List Event := Lex.events {} s

/-- No counter of a reader leaves its type on the text. -/
def Counted (s : List UInt8) : Prop := Lex.Counted {} s ∧ s.count LF ≤ INT_MAX

/-- Nor does the size of an array of its table, which had `k` sections before. -/
def InRange (k : ℕ) (s : List UInt8) : Prop := Counted s ∧ Sized k (groups (events s))

instance : DecidablePred Counted := fun _ => inferInstanceAs (Decidable (_ ∧ _))

instance (k : ℕ) : DecidablePred (InRange k) := fun _ => inferInstanceAs (Decidable (_ ∧ _))

section Append

variable (l : Lex) (n : ℕ) (s t : List UInt8)

@[simp] lemma Lex.after_nil : l.after [] = l := rfl

@[simp] lemma Lex.after_cons (c : UInt8) : l.after (c :: s) = (l.next c).after s := rfl

lemma Lex.after_append : l.after (s ++ t) = (l.after s).after t := by simp [Lex.after]

lemma Lex.events_append : l.events (s ++ t) = l.events s ++ (l.after s).events t := by
  induction s generalizing l with
  | nil => rfl
  | cons c s ih => simp [Lex.events, ih]

lemma Lex.fits_append : l.Fits n (s ++ t) ↔ l.Fits n s ∧ (l.after s).Fits (l.roomAfter n s) t := by
  induction s generalizing l n with
  | nil => simp [Lex.Fits, Lex.roomAfter]
  | cons c s ih => simp [Lex.Fits, Lex.roomAfter, ih, and_assoc]

lemma Lex.counted_append : l.Counted (s ++ t) ↔ l.Counted s ∧ (l.after s).Counted t := by
  induction s generalizing l with
  | nil => simp [Lex.Counted]
  | cons c s ih => simp [Lex.Counted, ih, and_assoc]

end Append

section InRange

variable {k : ℕ} {s t : List UInt8}

lemma Counted.of_append (h : Counted (s ++ t)) : Counted s := by
  refine ⟨((Lex.counted_append _ s t).1 h.1).1, le_trans ?_ h.2⟩
  rw [List.count_append]
  exact Nat.le_add_right _ _

lemma InRange.of_append (h : InRange k (s ++ t)) : InRange k s := by
  refine ⟨h.1.of_append, ?_⟩
  have hsized := h.2
  rw [events, Lex.events_append, groups, List.foldl_append] at hsized
  exact hsized.of_foldl

end InRange

/-! ### The reader simulates the lexer -/

/-- The block of the reader holds the line and zeros. -/
structure Sim (r : Reader) (l : Lex) (n : ℕ) : Prop where
  state : r.state = l.state
  inComment : r.inComment = l.inComment
  position : r.position = l.text.length
  spaces : r.spaces = l.spaces
  buf : r.buf = l.text ++ List.replicate (n - l.text.length) NUL
  length_le : l.text.length ≤ n
  size_le : 128 ≤ n
  value : l.state = .Value → r.value = some ⟨r.block, l.value⟩ ∧ l.value ≤ l.text.length

section Stores

variable {r : Reader} {t : List UInt8} {n : ℕ}

lemma store_ok (hb : r.buf = t ++ List.replicate (n - t.length) NUL) (hp : r.position = t.length) (hn : t.length < n)
    (hw : t.length + 1 < 2 ^ 32) (c : UInt8) : r.store c = .ok { r with
      buf := t ++ [c] ++ List.replicate (n - (t ++ [c]).length) NUL, position := (t ++ [c]).length } := by
  have hlt : r.position < r.buf.length := by simp [hb, hp]; omega
  have hset : r.buf.set r.position c = t ++ [c] ++ List.replicate (n - (t ++ [c]).length) NUL := by
    obtain ⟨k, hk⟩ : ∃ k, n - t.length = k + 1 := ⟨n - t.length - 1, by omega⟩
    rw [hb, hp, List.set_append_right _ _ le_rfl, Nat.sub_self, hk, List.replicate_succ, List.set_cons_zero]
    rw [show n - (t ++ [c]).length = k by simp; omega]
    simp
  unfold Reader.store
  rw [if_pos hlt, hset, hp, Nat.mod_eq_of_lt hw]
  simp [pure, Except.pure]

lemma store_over (hb : r.buf = t ++ List.replicate (n - t.length) NUL) (hp : r.position = t.length) (hn : n ≤ t.length)
    (c : UInt8) : r.store c = .error .overrun := by
  have hle : ¬ r.position < r.buf.length := by simp [hb, hp]; omega
  unfold Reader.store
  rw [if_neg hle]
  rfl

lemma storeSpaces_ok (k : ℕ) (hb : r.buf = t ++ List.replicate (n - t.length) NUL) (hp : r.position = t.length)
    (hn : t.length + k ≤ n) (hw : t.length + k < 2 ^ 32) : r.storeSpaces k = .ok { r with
      buf := t ++ List.replicate k SP ++ List.replicate (n - (t ++ List.replicate k SP).length) NUL
      position := (t ++ List.replicate k SP).length } := by
  induction k generalizing r t with
  | zero =>
    simp only [Reader.storeSpaces, List.replicate_zero, List.append_nil]
    rw [← hb, ← hp]
    rfl
  | succ k ih =>
    have h1 := store_ok hb hp (by omega) (by omega) SP
    have h2 := ih (r := { r with
      buf := t ++ [SP] ++ List.replicate (n - (t ++ [SP]).length) NUL, position := (t ++ [SP]).length }) rfl rfl
      (by simp; omega) (by simp; omega)
    simp only [Reader.storeSpaces, h1, bind, Except.bind]
    rw [h2]
    simp [List.replicate_succ]

lemma storeSpaces_over (k : ℕ) (hb : r.buf = t ++ List.replicate (n - t.length) NUL) (hp : r.position = t.length)
    (hle : t.length ≤ n) (hn : n < t.length + k) (hw : n < 2 ^ 32) : r.storeSpaces k = .error .overrun := by
  induction k generalizing r t with
  | zero => omega
  | succ k ih =>
    by_cases hlt : t.length < n
    · have h1 := store_ok hb hp hlt (by omega) SP
      simp only [Reader.storeSpaces, h1, bind, Except.bind]
      exact ih rfl rfl (by simp; omega) (by simp; omega)
    · have h1 := store_over hb hp (by omega) SP
      simp only [Reader.storeSpaces, h1, bind, Except.bind]

end Stores

section Simulation

variable {r : Reader} {l : Lex} {n : ℕ} {c : UInt8} {call : Option IniCallback}

lemma Sim.grow (h : Sim r l n) (hc : l.inComment = false) :
    Sim r.grow l (l.room n) ∧ (r.grow.out = r.out ∧ r.grow.line = r.line) ∧ l.text.length < l.room n := by
  have hlen : r.buf.length = n := by
    rw [h.buf]
    have := h.length_le
    simp
    omega
  have hsize := h.size_le
  unfold Reader.grow Lex.room
  rw [hlen, h.position]
  by_cases hfull : n - 2 < l.text.length
  · rw [if_pos hfull, if_pos ⟨hc, hfull⟩]
    have hle := h.length_le
    refine ⟨⟨h.state, h.inComment, rfl, h.spaces, ?_, by omega, by omega, ?_⟩, ⟨rfl, rfl⟩, by omega⟩
    · simp [h.buf]
    · intro hv
      obtain ⟨h1, h2⟩ := h.value hv
      simp [h1, h2]
  · rw [if_neg hfull, if_neg fun e => hfull e.2]
    exact ⟨h, ⟨rfl, rfl⟩, by omega⟩

/-- A store appends to the line. -/
lemma Sim.store (h : Sim r l n) (hn : l.text.length < n) (hw : l.text.length + 1 < 2 ^ 32) (c : UInt8) :
    ∃ r', r.store c = .ok r' ∧ Sim r' { l with text := l.text ++ [c] } n ∧ r'.out = r.out ∧ r'.line = r.line := by
  refine ⟨_, store_ok h.buf h.position hn hw c,
    ⟨h.state, h.inComment, rfl, h.spaces, rfl, by simp; omega, h.size_le, ?_⟩, rfl, rfl⟩
  intro hv
  obtain ⟨h1, h2⟩ := h.value hv
  refine ⟨h1, ?_⟩
  simp only [List.length_append]
  omega

lemma Sim.storeSpaces (h : Sim r l n) (hn : l.text.length + l.spaces ≤ n) (hw : l.text.length + l.spaces < 2 ^ 32) :
    ∃ r', r.storeSpaces r.spaces = .ok r' ∧ (r'.out = r.out ∧ r'.line = r.line) ∧
      Sim { r' with spaces := 0 } { l with text := l.text ++ List.replicate l.spaces SP, spaces := 0 } n := by
  rw [h.spaces]
  refine ⟨_, storeSpaces_ok l.spaces h.buf h.position hn hw, ⟨rfl, rfl⟩,
    ⟨h.state, h.inComment, rfl, rfl, rfl, by simpa using hn, h.size_le, ?_⟩⟩
  intro hv
  obtain ⟨h1, h2⟩ := h.value hv
  refine ⟨h1, ?_⟩
  simp only [List.length_append]
  omega

/-- An emptied buffer. -/
lemma Sim.clear (h : Sim r l n) (hc : l.inComment = false) (o : Output) (v : Option Pointer) :
    Sim { r.clear with out := o, value := v } .lineStart n := by
  have hlen : r.buf.length = n := by
    rw [h.buf]
    have := h.length_le
    simp
    omega
  refine ⟨rfl, h.inComment.trans hc, rfl, rfl, ?_, by simp [Lex.lineStart], h.size_le, fun e => by cases e⟩
  simp [Reader.clear, Lex.lineStart, hlen]

/-- The line, and what stands in it from an offset on, ends inside the block. -/
lemma Sim.stringAt (h : Sim r l n) (hn : l.text.length < n) {v : ℕ} (hv : v ≤ l.text.length) :
    stringAt (r.buf.drop v) = .ok (.ofBlock (l.text.drop v)) := by
  obtain ⟨k, hk⟩ : ∃ k, n - l.text.length = k + 1 := ⟨n - l.text.length - 1, by omega⟩
  have hdrop : r.buf.drop v = l.text.drop v ++ List.replicate (k + 1) NUL := by
    rw [h.buf, hk, List.drop_append_of_le_length hv]
  have hmem : NUL ∈ r.buf.drop v := by rw [hdrop]; simp [List.replicate_succ]
  have hstr : CString.ofBlock (r.buf.drop v) = .ofBlock (l.text.drop v) := by
    ext1
    rw [CString.ofBlock_val, CString.ofBlock_val, hdrop, cstr_append_zeros]
  unfold Ini.stringAt
  rw [if_pos hmem, hstr]
  rfl

/-- The value pointer is not stale where a value is read. -/
lemma Sim.atValue (h : Sim r l n) (hv : l.state = .Value) : r.atValue = .ok (r.buf.drop l.value) := by
  simp [Reader.atValue, (h.value hv).1, pure, Except.pure]

/-- The byte that tells a leading space from others. -/
lemma Sim.firstByte (h : Sim r l n) (hn : l.text.length < n) :
    r.firstByte = .ok ((l.text.drop l.start).headD NUL) := by
  obtain ⟨k, hk⟩ : ∃ k, n - l.text.length = k + 1 := ⟨n - l.text.length - 1, by omega⟩
  have hread : ∀ {v}, v ≤ l.text.length → ∃ t, r.buf.drop v = (l.text.drop v).headD NUL :: t := by
    intro v hv
    rw [h.buf, hk, List.drop_append_of_le_length hv]
    cases l.text.drop v with
    | nil => exact ⟨_, rfl⟩
    | cons b t => exact ⟨_, rfl⟩
  unfold Reader.firstByte Lex.start
  rw [h.state]
  split_ifs with hs
  · obtain ⟨t, ht⟩ := hread (h.value hs).2
    rw [h.atValue hs, ht]
    rfl
  · obtain ⟨t, ht⟩ := hread (Nat.zero_le _)
    rw [List.drop_zero] at ht
    rw [ht, List.drop_zero]
    rfl

end Simulation

/-! ### One character -/

section ReadChar

variable {r : Reader} {l : Lex} {n : ℕ} {c : UInt8} {call : Option IniCallback} {o : Output}

/-- The newline case on a block with room. -/
lemma Sim.endLine (h : Sim r l n) (hc : l.inComment = false) (hn : l.text.length < n)
    (ho : r.out.applyAll call l.lineEvent.toList = .ok o) :
    ∃ r', r.endLine call = .ok r' ∧ Sim r' .lineStart n ∧ r'.out = o ∧ r'.line = r.line := by
  have hkey := h.stringAt hn (Nat.zero_le _)
  simp only [List.drop_zero] at hkey
  unfold Reader.endLine
  unfold Lex.lineEvent at ho
  rw [h.state]
  cases hs : l.state with
  | Value =>
    have hval := h.stringAt hn (h.value hs).2
    simp only [hs, Option.toList, Output.applyAll, List.foldlM_cons, List.foldlM_nil, Output.apply, bind_pure] at ho
    cases hneed : r.out.needSection call with
    | error e => simp [hneed, bind, Except.bind] at ho
    | ok o1 =>
      simp only [hneed, bind, Except.bind] at ho
      refine ⟨_, ?_, h.clear hc o none, rfl, rfl⟩
      simp only [bind, Except.bind, hkey, h.atValue hs, hval, ho]
      rfl
  | Comment =>
    simp only [hs, Option.toList, Output.applyAll, List.foldlM_cons, List.foldlM_nil, Output.apply, bind_pure] at ho
    cases hneed : r.out.needSection call with
    | error e => simp [hneed, bind, Except.bind] at ho
    | ok o1 =>
      simp only [hneed, bind, Except.bind] at ho
      refine ⟨_, ?_, h.clear hc o r.value, rfl, rfl⟩
      simp only [bind, Except.bind, hkey, ho]
      rfl
  | Section =>
    simp only [hs, Option.toList, Output.applyAll, List.foldlM_cons, List.foldlM_nil, Output.apply, bind_pure] at ho
    cases ho
    refine ⟨_, ?_, h.clear hc _ r.value, rfl, rfl⟩
    simp only [bind, Except.bind, hkey]
    rfl
  | Key =>
    simp only [h.position, List.length_eq_zero_iff]
    by_cases ht : l.text = []
    · simp only [hs, ht, if_true, Option.toList, Output.applyAll, List.foldlM_nil] at ho
      cases ho
      rw [if_pos ht]
      exact ⟨_, rfl, h.clear hc _ r.value, rfl, rfl⟩
    · simp only [hs, ht, if_false, Option.toList, Output.applyAll, List.foldlM_cons, List.foldlM_nil, Output.apply,
        bind_pure] at ho
      cases ho
      rw [if_neg ht]
      refine ⟨_, ?_, h.clear hc _ r.value, rfl, rfl⟩
      simp only [bind, Except.bind, hkey]
      rfl

/-- The `]` case on a block with room. -/
lemma Sim.closeSection (h : Sim r l n) (hc : l.inComment = false) (hn : l.text.length < n)
    (ho : r.out.createSection call (.ofBlock l.text) = .ok o) :
    ∃ r', (do
      let name ← Ini.stringAt r.buf
      let out ← r.out.createSection call name
      pure { r.clear with out := out } : Except IniFault Reader) = .ok r' ∧ Sim r' .lineStart n ∧
      r'.out = o ∧ r'.line = r.line := by
  have hkey := h.stringAt hn (Nat.zero_le _)
  simp only [List.drop_zero] at hkey
  refine ⟨_, ?_, h.clear hc o r.value, rfl, rfl⟩
  simp only [bind, Except.bind, hkey, ho]
  rfl

/-- A space is counted, unless it is a leading one. -/
lemma Sim.space (h : Sim r l n) (hn : l.text.length < n)
    (hw : (if l.AtStart then l else { l with spaces := l.spaces + 1 }).spaces ≤ INT_MAX) :
    ∃ r', (do
      let b ← r.firstByte
      if b = NUL then pure r else r.countSpace : Except IniFault Reader) = .ok r' ∧
      Sim r' (if l.AtStart then l else { l with spaces := l.spaces + 1 }) n ∧ r'.out = r.out ∧ r'.line = r.line := by
  simp only [h.firstByte hn, bind, Except.bind]
  by_cases h0 : l.AtStart
  · rw [if_pos h0, if_pos (show _ = NUL from h0)]
    exact ⟨_, rfl, h, rfl, rfl⟩
  · rw [if_neg h0] at hw
    rw [if_neg h0, if_neg (show ¬ _ = NUL from h0), Reader.countSpace, if_pos (by rw [h.spaces]; exact hw)]
    exact ⟨_, rfl, { h with spaces := congrArg (· + 1) h.spaces }, rfl, rfl⟩

/-- A line is counted. -/
lemma Sim.countLine (h : Sim r l n) (hline : r.line + 1 ≤ INT_MAX) :
    ∃ r', r.countLine = .ok r' ∧ Sim r' l n ∧ r'.out = r.out ∧ r'.line = r.line + 1 :=
  ⟨_, if_pos hline, { h with }, rfl, rfl⟩

/-- A `;` or `#` is part of a value, and elsewhere it opens a comment. -/
lemma Sim.commentMark (h : Sim r l n) (hn : l.text.length < n) (hw : l.text.length + 1 < 2 ^ 32) (c : UInt8) :
    ∃ r', (if r.state = .Value then r.store c
      else do
        let r ← { r with state := .Comment }.store c
        pure { r with inComment := true } : Except IniFault Reader) = .ok r' ∧
      Sim r' (if l.state = .Value then { l with text := l.text ++ [c] }
        else { l with state := .Comment, text := l.text ++ [c], inComment := true }) n ∧
      r'.out = r.out ∧ r'.line = r.line := by
  rw [h.state]
  by_cases hv : l.state = .Value
  · rw [if_pos hv, if_pos hv]
    exact h.store hn hw c
  · rw [if_neg hv, if_neg hv]
    have hcs : Sim { r with state := .Comment } { l with state := .Comment } n :=
      { h with state := rfl, value := fun e => by cases e }
    obtain ⟨r', h1, h2, h3⟩ := hcs.store hn hw c
    simp only [h1, bind, Except.bind]
    exact ⟨_, rfl, { h2 with inComment := rfl }, h3⟩

/-- The value starts behind the `NUL` that takes the place of the `=`. -/
lemma Sim.openValue (h : Sim r l n) (hn : l.text.length < n) (hw : l.text.length + 1 < 2 ^ 32) :
    ∃ r', (do
      let r ← { r with state := .Value }.store NUL
      pure { r with value := some ⟨r.block, r.position⟩, spaces := 0 } : Except IniFault Reader) = .ok r' ∧
      Sim r' { l with state := .Value, text := l.text ++ [NUL], spaces := 0, value := l.text.length + 1 } n ∧
      r'.out = r.out ∧ r'.line = r.line := by
  have h1 := store_ok (r := { r with state := .Value }) h.buf h.position hn hw NUL
  simp only [h1, bind, Except.bind]
  refine ⟨_, rfl, ⟨rfl, h.inComment, rfl, rfl, rfl, by simpa using hn, h.size_le, fun _ => ?_⟩, rfl, rfl⟩
  simp

/-- Any other character, behind the spaces that were put off. -/
lemma Sim.put (h : Sim r l n) (hn : l.text.length + l.spaces < n) (hw : l.text.length + l.spaces + 1 < 2 ^ 32) (c : UInt8) :
    ∃ r', (do
      let r ← r.storeSpaces r.spaces
      { r with spaces := 0 }.store c : Except IniFault Reader) = .ok r' ∧ Sim r' (l.put c) n ∧
      r'.out = r.out ∧ r'.line = r.line := by
  obtain ⟨r1, h1, h2, h3⟩ := h.storeSpaces (by omega) (by omega)
  obtain ⟨r', h4, h5, h6⟩ := h3.store (by simpa using hn) (by simpa using hw) c
  simp only [h1, bind, Except.bind]
  exact ⟨r', h4, h5, h6.1.trans h2.1, h6.2.trans h2.2⟩

/-- A character of a comment. -/
lemma Sim.commentChar (h : Sim r l n) (hc : l.inComment = true) (hfit : (l.next c).text.length ≤ l.room n)
    (hsmall : (l.next c).Small) :
    ∃ r', readChar call r c = .ok r' ∧ Sim r' (l.next c) (l.room n) ∧ r'.out = r.out ∧ r'.line = r.line := by
  have hw := hsmall.1
  rw [Lex.next, if_pos hc] at hw
  have hroom : l.room n = n := by simp [Lex.room, hc]
  rw [hroom, Lex.next, if_pos hc] at hfit
  rw [hroom, Lex.next, if_pos hc, readChar, if_pos (h.inComment.trans hc)]
  by_cases hlf : c = LF
  · rw [if_pos hlf, if_pos hlf]
    exact ⟨_, rfl, { h with inComment := rfl }, rfl, rfl⟩
  · rw [if_neg hlf] at hfit hw
    rw [if_neg hlf, if_neg hlf]
    exact h.store (by simpa using hfit) (by simpa using hw) c

/-- **A character that fits.** Where the counters stay in their types, the reader does what the lexer does and puts out its
event. -/
theorem readChar_fits (h : Sim r l n) (hfit : (l.next c).text.length ≤ l.room n) (hsmall : (l.next c).Small)
    (hline : r.line + [c].count LF ≤ INT_MAX) (ho : r.out.applyAll call (l.event c).toList = .ok o) :
    ∃ r', readChar call r c = .ok r' ∧ Sim r' (l.next c) (l.room n) ∧ r'.out = o ∧ r'.line ≤ r.line + [c].count LF := by
  by_cases hc : l.inComment = true
  · rw [Lex.event, if_pos hc] at ho
    cases ho
    obtain ⟨r', h1, h2, h3, h4⟩ := h.commentChar hc hfit hsmall
    exact ⟨r', h1, h2, h3, by omega⟩
  have hc' : l.inComment = false := by simpa using hc
  obtain ⟨hg, ⟨hout, hgrow⟩, hlt⟩ := h.grow hc'
  have hkept : ∀ {r' : Reader}, r'.line = r.grow.line → r'.line ≤ r.line + [c].count LF := fun e => by omega
  have hnext : (l.next c).text.length ≤ l.room n ∧ (l.next c).text.length < 2 ^ 32 ∧ (l.next c).spaces ≤ INT_MAX :=
    ⟨hfit, hsmall⟩
  rw [← hout, Lex.event, if_neg hc] at ho
  rw [Lex.next, if_neg hc] at hnext
  rw [Lex.next, if_neg hc, readChar, if_neg (by rw [h.inComment]; exact hc)]
  dsimp only
  by_cases hsp : c = SP
  · rw [if_neg (by rw [hsp]; decide), if_neg (by rw [hsp]; decide)] at ho
    cases ho
    rw [if_pos hsp] at hnext
    rw [if_pos hsp, if_pos hsp]
    obtain ⟨r', h1, h2, h3, h4⟩ := hg.space hlt hnext.2.2
    exact ⟨r', h1, h2, h3, hkept h4⟩
  rw [if_neg hsp] at hnext
  rw [if_neg hsp, if_neg hsp]
  by_cases hcom : c = SEMICOLON ∨ c = HASH
  · rw [if_neg (by rcases hcom with rfl | rfl <;> decide), if_neg (by rcases hcom with rfl | rfl <;> decide)] at ho
    cases ho
    rw [if_pos hcom] at hnext
    rw [if_pos hcom, if_pos hcom]
    have hw : l.text.length + 1 < 2 ^ 32 := by
      have hlen := hnext.2.1
      split_ifs at hlen <;> simpa using hlen
    obtain ⟨r', h1, h2, h3, h4⟩ := hg.commentMark hlt hw c
    exact ⟨r', h1, h2, h3, hkept h4⟩
  rw [if_neg hcom] at hnext
  rw [if_neg hcom, if_neg hcom]
  by_cases hcr : c = CR
  · rw [if_neg (by rw [hcr]; decide), if_neg (by rw [hcr]; decide)] at ho
    cases ho
    rw [if_pos hcr, if_pos hcr]
    exact ⟨_, rfl, hg, rfl, hkept rfl⟩
  rw [if_neg hcr] at hnext
  rw [if_neg hcr, if_neg hcr]
  by_cases hlf : c = LF
  · rw [if_pos hlf] at ho
    rw [if_pos hlf, if_pos hlf]
    have hone : [c].count LF = 1 := by rw [hlf]; rfl
    obtain ⟨r1, h1, hs, hout1, hl1⟩ := hg.countLine (by omega)
    obtain ⟨r', h2, hs', hout', hl'⟩ := hs.endLine hc' hlt (by rw [hout1]; exact ho)
    refine ⟨r', ?_, hs', hout', by omega⟩
    simp only [h1, bind, Except.bind]
    exact h2
  rw [if_neg hlf] at hnext ho
  rw [if_neg hlf, if_neg hlf]
  by_cases hlb : c = LBRACKET
  · rw [if_neg (by rw [hlb]; decide)] at ho
    cases ho
    rw [if_pos hlb, if_pos hlb]
    exact ⟨_, rfl, { hg with state := rfl, value := fun e => by cases e }, rfl, hkept rfl⟩
  rw [if_neg hlb] at hnext
  rw [if_neg hlb, if_neg hlb]
  by_cases hrb : c = RBRACKET
  · rw [if_pos hrb] at ho
    rw [if_pos hrb, if_pos hrb]
    simp only [Option.toList, Output.applyAll, List.foldlM_cons, List.foldlM_nil, Output.apply, bind_pure] at ho
    obtain ⟨r', h1, h2, h3, h4⟩ := hg.closeSection hc' hlt ho
    exact ⟨r', h1, h2, h3, hkept h4⟩
  rw [if_neg hrb] at hnext ho
  rw [if_neg hrb, if_neg hrb, hg.state]
  cases ho
  by_cases heq : (c = EQUALS ∨ c = COLON) ∧ l.state = .Key
  · rw [if_pos heq] at hnext
    rw [if_pos heq, if_pos heq]
    obtain ⟨r', h1, h2, h3, h4⟩ := hg.openValue hlt (by simpa using hnext.2.1)
    exact ⟨r', h1, h2, h3, hkept h4⟩
  · rw [if_neg heq] at hnext
    rw [if_neg heq, if_neg heq]
    simp only [Lex.put, List.length_append, List.length_replicate, List.length_singleton] at hnext
    obtain ⟨r', h1, h2, h3, h4⟩ := hg.put (by omega) (by omega) c
    exact ⟨r', h1, h2, h3, hkept h4⟩

/-- **A character that does not fit** is stored outside the block. -/
theorem readChar_over (h : Sim r l n) (hover : ¬ (l.next c).text.length ≤ l.room n) (hsmall : (l.next c).Small) :
    readChar call r c = .error .overrun := by
  have hw : l.room n < 2 ^ 32 := lt_trans (not_le.1 hover) hsmall.1
  unfold readChar
  rw [h.inComment]
  by_cases hc : l.inComment = true
  · have hroom : l.room n = n := by simp [Lex.room, hc]
    have hle := h.length_le
    rw [hroom, Lex.next, if_pos hc] at hover
    rw [if_pos hc]
    by_cases hlf : c = LF
    · rw [if_pos hlf] at hover
      exact absurd hle hover
    · rw [if_neg hlf, List.length_append, List.length_singleton] at hover
      rw [if_neg hlf]
      exact store_over h.buf h.position (by omega) c
  obtain ⟨hg, -, hlt⟩ := h.grow (by simpa using hc)
  rw [Lex.next, if_neg hc] at hover
  rw [if_neg hc]
  dsimp only
  -- in every other case the line is not longer than the block by the growth check
  split_ifs at hover with h1 h2 h3 h4 h5 h6 h7 h8 h9
  · exact absurd hlt.le hover
  · exact absurd hlt.le hover
  · exact absurd (by simpa using hlt) hover
  · exact absurd (by simpa using hlt) hover
  · exact absurd hlt.le hover
  · exact absurd (Nat.zero_le _) hover
  · exact absurd hlt.le hover
  · exact absurd (Nat.zero_le _) hover
  · exact absurd (by simpa using hlt) hover
  · rw [hg.state, if_neg h1, if_neg h3, if_neg h5, if_neg h6, if_neg h7, if_neg h8, if_neg h9]
    simp only [Lex.put, List.length_append, List.length_replicate, List.length_singleton] at hover
    by_cases hsp : l.text.length + l.spaces ≤ l.room n
    · obtain ⟨r', hs1, -, hs2⟩ := hg.storeSpaces hsp (by omega)
      simp only [hs1, bind, Except.bind]
      exact store_over hs2.buf hs2.position (by simp; omega) c
    · have hs1 := storeSpaces_over r.grow.spaces hg.buf hg.position hg.length_le (by rw [hg.spaces]; omega) hw
      simp only [hs1, bind, Except.bind]

end ReadChar

/-! ### Whole inputs -/

/-- The reader on a text that fits. -/
lemma foldl_fits {call : Option IniCallback} (s : List UInt8) {r : Reader} {l : Lex} {n : ℕ} {o : Output}
    (h : Sim r l n) (hfit : l.Fits n s) (hcount : l.Counted s) (hline : r.line + s.count LF ≤ INT_MAX)
    (ho : r.out.applyAll call (l.events s) = .ok o) :
    ∃ r', s.foldlM (readChar call) r = .ok r' ∧ Sim r' (l.after s) (l.roomAfter n s) ∧ r'.out = o := by
  induction s generalizing r l n with
  | nil =>
    cases ho
    exact ⟨r, rfl, h, rfl⟩
  | cons c s ih =>
    obtain ⟨hc, hs⟩ := hfit
    obtain ⟨hsmall, hcount⟩ := hcount
    rw [← List.singleton_append, List.count_append] at hline
    rw [Lex.events, Output.applyAll, List.foldlM_append] at ho
    cases ho1 : r.out.applyAll call (l.event c).toList with
    | error e =>
      rw [Output.applyAll] at ho1
      simp [ho1, bind, Except.bind] at ho
    | ok o1 =>
      obtain ⟨r1, h1, h2, h3, h4⟩ := readChar_fits h hc hsmall (by omega) ho1
      rw [Output.applyAll] at ho1
      simp only [ho1, bind, Except.bind] at ho
      obtain ⟨r', h5, h6, h7⟩ := ih h2 hs hcount (by omega) (by rw [h3]; exact ho)
      refine ⟨r', ?_, h6, h7⟩
      simp only [List.foldlM_cons, h1, bind, Except.bind]
      exact h5

/-- The reader on a text that does not fit. -/
lemma foldl_over {call : Option IniCallback} (s : List UInt8) {r : Reader} {l : Lex} {n : ℕ} (h : Sim r l n)
    (hr : r.out.Ready call (l.events s)) (hcount : l.Counted s) (hline : r.line + s.count LF ≤ INT_MAX)
    (hover : ¬ l.Fits n s) : s.foldlM (readChar call) r = .error .overrun := by
  induction s generalizing r l n with
  | nil => exact absurd trivial hover
  | cons c s ih =>
    obtain ⟨hsmall, hcount⟩ := hcount
    rw [← List.singleton_append, List.count_append] at hline
    by_cases hc : (l.next c).text.length ≤ l.room n
    · obtain ⟨o, ho, hready⟩ := hr.apply
      obtain ⟨r1, h1, h2, rfl, h4⟩ := readChar_fits h hc hsmall (by omega) ho
      simp only [List.foldlM_cons, h1, bind, Except.bind]
      exact ih h2 hready hcount (by omega) fun hs => hover ⟨hc, hs⟩
    · simp only [List.foldlM_cons, readChar_over h hc hsmall, bind, Except.bind]

/-- The text fits into the line buffer of a reader from its start. -/
def FitsBuffer (s : List UInt8) : Prop := Lex.Fits {} 128 s

instance : DecidablePred FitsBuffer := fun s => inferInstanceAs (Decidable (Lex.Fits {} 128 s))

lemma sim_start {n : ℕ} (hn : 128 ≤ n) (o : Output) : Sim { buf := List.replicate n NUL, out := o } {} n :=
  ⟨rfl, rfl, rfl, rfl, rfl, Nat.zero_le n, hn, fun h => by cases h⟩

section Whole

variable {input : IniIn}

/-- The message for a stream with an error, behind those of the reading. -/
def streamErrors (input : IniIn) : List (List UInt8) :=
  if input.error then [bytes "Error reading ini file"] else []

/-- The output at the end of the input. -/
lemma finish_eq (o : Output) : (if input.error then o.report (bytes "Error reading ini file") else o) =
    { o with errors := o.errors ++ streamErrors input } := by
  unfold streamErrors
  split_ifs
  · rfl
  · simp

/-- **A reading of a text that fits** puts out its events. -/
theorem readIni_fits {call : Option IniCallback} {table : Option IniTable} {o : Output} (hfit : FitsBuffer input.data)
    (hcount : Counted input.data)
    (ho : Output.applyAll call { sink := { table := table } } (events input.data) = .ok o) :
    readIni input call table = .ok { o with errors := o.errors ++ streamErrors input } := by
  obtain ⟨r', h1, -, h2⟩ :=
    foldl_fits input.data (sim_start le_rfl { sink := { table := table } }) hfit hcount.1 (by simpa using hcount.2) ho
  simp only [readIni, h1, bind, Except.bind, pure, Except.pure, finish_eq, h2]

/-- **A reading into a table.** Behind the sections that were there, the table has the groups of the text, and the errors
are the messages in it. A text that does not fit is stored outside the line buffer. -/
theorem iniTableRead_eq (t : IniTable) {input : IniIn} (hin : InRange t.sections.cells.length input.data) :
    (FitsBuffer input.data → ∃ o t', iniTableRead t input = .ok o ∧ o.sink.table = some t' ∧
      t'.contents = t.contents ++ groups (events input.data) ∧
      o.errors = messages (events input.data) ++ streamErrors input) ∧
    (¬ FitsBuffer input.data → iniTableRead t input = .error .overrun) := by
  obtain ⟨hcount, hsized⟩ := hin
  constructor
  · intro hfit
    obtain ⟨o, t', ho, ht, hc, herr⟩ := applyAll_table t (events input.data) hsized
    refine ⟨{ o with errors := o.errors ++ streamErrors input }, t', readIni_fits hfit hcount ho, ht, hc, ?_⟩
    simp [herr]
  · intro hover
    have hread := foldl_over input.data (sim_start le_rfl _) (ready_start hsized) hcount.1 (by simpa using hcount.2) hover
    simp only [iniTableRead, readIni, hread, bind, Except.bind]

/-- What a reading into an empty table has put out if it completes. -/
lemma contents_of_read {o : Output} {t : IniTable} (hin : InRange 0 input.data)
    (h : iniTableRead iniTableCreate input = .ok o) (ht : o.sink.table = some t) :
    t.contents = groups (events input.data) ∧ o.errors = messages (events input.data) ++ streamErrors input := by
  obtain ⟨hread, hread'⟩ := iniTableRead_eq iniTableCreate hin
  by_cases hfit : FitsBuffer input.data
  · obtain ⟨o', t', ho', ht', hc, he⟩ := hread hfit
    obtain rfl : o' = o := Except.ok.inj (ho'.symm.trans h)
    obtain rfl : t' = t := Option.some.inj (ht'.symm.trans ht)
    exact ⟨hc, he⟩
  · rw [hread' hfit] at h
    cases h

/-- **A reading for a callback** makes the calls of the text. -/
theorem iniRead_eq {input : IniIn} (hcount : Counted input.data) :
    (FitsBuffer input.data → ∃ o, iniRead input ⟨true, true⟩ = .ok o ∧ o.sink.calls = calls (events input.data) ∧
      o.errors = messages (events input.data) ++ streamErrors input) ∧
    (¬ FitsBuffer input.data → iniRead input ⟨true, true⟩ = .error .overrun) := by
  constructor
  · intro hfit
    obtain ⟨o, ho, -, hcalls, herr⟩ := applyAll_callback (o := { sink := { table := none } }) (events input.data) rfl
    refine ⟨{ o with errors := o.errors ++ streamErrors input }, readIni_fits hfit hcount ho, by simp [hcalls], ?_⟩
    simp [herr]
  · intro hover
    have hready : Output.Ready (some ⟨true, true⟩) { sink := { table := none } } (events input.data) := Or.inr ⟨rfl, rfl⟩
    have hread := foldl_over input.data (sim_start le_rfl _) hready hcount.1 (by simpa using hcount.2) hover
    simp only [iniRead, readIni, hread, bind, Except.bind]

end Whole

end Wrensong.Ini
