import Wrensong.Ini.Lexer

/-!
# Readings in a large line buffer

`readIniIn n` is the reader with a line buffer of `n` bytes at first, where the program has 128. In a buffer that the text
fits into, the reading puts out the events of the text (`iniTableReadIn_eq`), and one that is `Ample` is large enough for any
text of its length. What a line adds is then said by the events it completes behind the text before it (`readings_of_line`).
-/

namespace Wrensong.Ini

open Wrensong.Lib Wrensong.Lib.Bytes

/-- `_ini_read` with a line buffer of `n` bytes at first. -/
def readIniIn (n : ℕ) (input : IniIn) (call : Option IniCallback) (table : Option IniTable) : Except IniFault Output := do
  let r ← input.data.foldlM (readChar call) { buf := List.replicate n NUL, out := { sink := { table := table } } }
  pure (if input.error then r.out.report (bytes "Error reading ini file") else r.out)

lemma readIniIn_128 : readIniIn 128 = readIni := rfl

/-- `ini_table_read` with such a line buffer. -/
def iniTableReadIn (n : ℕ) (table : IniTable) (input : IniIn) : Except IniFault Output :=
  readIniIn n input none (some table)

/-- The line buffer has room for the whole text. -/
def Ample (n : ℕ) (s : List UInt8) : Prop := 128 ≤ n ∧ s.length ≤ n

instance (n : ℕ) : DecidablePred (Ample n) := fun s => inferInstanceAs (Decidable (128 ≤ n ∧ s.length ≤ n))

section Room

variable {l : Lex} {n : ℕ} {c : UInt8} {s u : List UInt8}

/-- A character makes the line, with the spaces that were put off, at most one longer. -/
lemma length_next_le (l : Lex) (c : UInt8) :
    (l.next c).text.length + (l.next c).spaces ≤ l.text.length + l.spaces + 1 := by
  rcases hl : l.inComment with _ | _
  · have ht := turn hl c
    generalize l.next c = m at ht ⊢
    generalize l.event c = e at ht
    cases ht with
    | lead hs => omega
    | space hs => exact (Nat.add_assoc _ _ _).ge
    | mark hc hv =>
      simp only [List.length_append, List.length_singleton]
      omega
    | markValue hc hv =>
      simp only [List.length_append, List.length_singleton]
      omega
    | carriage => omega
    | lineEnd => exact Nat.zero_le _
    | openBracket => exact Nat.le_succ _
    | headerEnd => exact Nat.zero_le _
    | equals hc hk =>
      simp only [List.length_append, List.length_singleton]
      omega
    | put =>
      simp only [Lex.put, List.length_append, List.length_singleton, List.length_replicate]
      omega
  · rw [Lex.next, if_pos hl]
    split_ifs
    · exact Nat.le_succ _
    · simp only [List.length_append, List.length_singleton]
      omega

/-- **A block with room for the rest of the text** is never left. -/
lemma fits_of_length (h : l.text.length + l.spaces + s.length ≤ n) : l.Fits n s := by
  induction s generalizing l n with
  | nil => trivial
  | cons c s ih =>
    have hnext := length_next_le l c
    have hroom := le_room (l := l) n
    rw [List.length_cons] at h
    exact ⟨by omega, ih (by omega)⟩

lemma Ample.fits (h : Ample n s) : Lex.Fits {} n s := fits_of_length (by simpa using h.2)

lemma Ample.of_append (h : Ample n (s ++ u)) : Ample n s := by
  obtain ⟨h1, h2⟩ := h
  rw [List.length_append] at h2
  exact ⟨h1, by omega⟩

end Room

/-- **A reading into a table, in a buffer that the text fits into.** -/
theorem iniTableReadIn_eq {n : ℕ} {input : IniIn} (h128 : 128 ≤ n) (hfit : Lex.Fits {} n input.data) (t : IniTable)
    (hin : InRange t.sections.cells.length input.data) :
    ∃ o u, iniTableReadIn n t input = .ok o ∧ o.sink.table = some u ∧
      u.contents = t.contents ++ groups (events input.data) ∧
      o.errors = messages (events input.data) ++ streamErrors input := by
  obtain ⟨o, u, ho, hu, hc, herr⟩ := applyAll_table t (events input.data) hin.2
  obtain ⟨r', h1, -, h2⟩ := foldl_fits input.data (sim_start h128 { sink := { table := some t } }) hfit hin.1.1
    (by simpa using hin.1.2) ho
  refine ⟨{ o with errors := o.errors ++ streamErrors input }, u, ?_, hu, hc, by simp [herr]⟩
  simp only [iniTableReadIn, readIniIn, h1, bind, Except.bind, pure, Except.pure, finish_eq, h2]

/-! ### What a line adds -/

/-- The table and the errors of a reading of `s` into `t`. -/
def ReadsTo (n : ℕ) (t : IniTable) (s : List UInt8) (gs : List Group) (errors : List (List UInt8)) : Prop :=
  ∃ o u, iniTableReadIn n t ⟨s, false⟩ = .ok o ∧ o.sink.table = some u ∧ u.contents = gs ∧ o.errors = errors

section Line

variable {n : ℕ} {t : IniTable} {s p line : List UInt8} {gs gs' : List Group} {es es' : List (List UInt8)}

lemma ReadsTo.unique (h : ReadsTo n t s gs es) (h' : ReadsTo n t s gs' es') : gs = gs' ∧ es = es' := by
  obtain ⟨o, u, ho, hu, rfl, rfl⟩ := h
  obtain ⟨o', u', ho', hu', rfl, rfl⟩ := h'
  obtain rfl : o = o' := Except.ok.inj (ho.symm.trans ho')
  obtain rfl : u = u' := Option.some.inj (hu.symm.trans hu')
  exact ⟨rfl, rfl⟩

lemma ReadsTo.contents (h : ReadsTo n t s gs es) :
    (iniTableReadIn n t ⟨s, false⟩).toOption.bind (fun o => o.sink.table.map IniTable.contents) = some gs := by
  obtain ⟨o, u, ho, hu, rfl, -⟩ := h
  rw [ho, Except.toOption, Option.bind_some, hu]
  rfl

lemma readsTo_of_fits (h128 : 128 ≤ n) (hfit : Lex.Fits {} n s) (hin : InRange t.sections.cells.length s) :
    ReadsTo n t s (t.contents ++ groups (events s)) (messages (events s)) := by
  obtain ⟨o, u, ho, hu, hc, he⟩ := iniTableReadIn_eq h128 (show Lex.Fits {} n (IniIn.mk s false).data from hfit) t hin
  exact ⟨o, u, ho, hu, hc, by simpa [streamErrors] using he⟩

/-- **What a line adds** to the groups and the messages of the text before it. -/
lemma readings_of_line (h128 : 128 ≤ n) (hfit : Lex.Fits {} n (p ++ line))
    (hin : InRange t.sections.cells.length (p ++ line)) :
    ReadsTo n t p (t.contents ++ groups (events p)) (messages (events p)) ∧
      ReadsTo n t (p ++ line) (t.contents ++ ((Lex.after {} p).events line).foldl addEvent (groups (events p)))
        (messages (events p) ++ messages ((Lex.after {} p).events line)) := by
  refine ⟨readsTo_of_fits h128 ((Lex.fits_append _ n p line).1 hfit).1 hin.of_append, ?_⟩
  have h := readsTo_of_fits h128 hfit hin
  rwa [events, Lex.events_append, groups, List.foldl_append, messages_append] at h

/-- The line adds the entry to the last section, and no error. -/
def AddsEntry (n : ℕ) (t : IniTable) (p line : List UInt8) (k v : CString) : Prop :=
  ∃ gs g errors, ReadsTo n t p (gs ++ [g]) errors ∧ ReadsTo n t (p ++ line) (gs ++ [(g.1, g.2 ++ [(k, v)])]) errors

/-- A line adds the entry when its events do. -/
lemma addsEntry_iff (h128 : 128 ≤ n) (hfit : Lex.Fits {} n (p ++ line)) (hin : InRange t.sections.cells.length (p ++ line))
    (hopen : groups (events p) ≠ []) (k v : CString) :
    AddsEntry n t p line k v ↔
      ((Lex.after {} p).events line).foldl addEvent (groups (events p)) = addEntry (k, v) (groups (events p)) ∧
        messages ((Lex.after {} p).events line) = [] := by
  obtain ⟨hp, hline⟩ := readings_of_line h128 hfit hin
  obtain ⟨gs₀, g₀, hgs⟩ := (List.eq_nil_or_concat' (groups (events p))).resolve_left hopen
  rw [hgs] at hp hline ⊢
  rw [addEntry_concat]
  constructor
  · rintro ⟨gs, g, errors, hbefore, hafter⟩
    obtain ⟨hb, rfl⟩ := hp.unique hbefore
    obtain ⟨ha, he⟩ := hline.unique hafter
    rw [← List.append_assoc] at hb
    obtain ⟨rfl, hg⟩ := List.append_inj' hb rfl
    obtain rfl := (List.cons.inj hg).1
    rw [List.append_assoc] at ha
    exact ⟨List.append_cancel_left ha, List.append_right_eq_self.1 he⟩
  · rintro ⟨hg, he⟩
    rw [hg, he, List.append_nil, ← List.append_assoc] at hline
    rw [← List.append_assoc] at hp
    exact ⟨_, _, _, hp, hline⟩

end Line

end Wrensong.Ini
