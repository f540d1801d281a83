import Wrensong.Ini.Comment

/-!
# The first and the last line

The reader starts in the state `Section`, and behind each newline it is in the state `Key`. So a blank line at the start
is an error and no other blank line is one (`sameReading_blank_iff`). At the end of the input the loop stops before the
switch sees it, and what the last line would complete is dropped (`sameReading_newline_iff`).

For the first line two readers are compared, one that starts in `Section` and one that starts in `Key`. `Apart` says how
far they can be from each other before they meet at the start of a line; none of it makes up for the error of the blank
line (`Apart.meet`).
-/

namespace Wrensong.Ini

open Wrensong.Lib Wrensong.Lib.Bytes

/-- Reading two texts into a table completes, with the same table and the same errors. -/
def SameReading (t : IniTable) (x y : List UInt8) (error : Bool) : Prop :=
  ∃ o o', iniTableRead t ⟨x, error⟩ = .ok o ∧ iniTableRead t ⟨y, error⟩ = .ok o' ∧ o.sink.table = o'.sink.table ∧
    o.errors = o'.errors

/-! ### Readings that are the same -/

/-- The event is an entry. -/
def Event.isEntry : Event → Bool
  | .entry _ _ => true
  | _ => false

/-- The number of entries in all groups. -/
def entries (gs : List Group) : ℕ := (gs.map fun g => g.2.length).sum

lemma entries_addEntry (e : CString × CString) (gs : List Group) : entries (addEntry e gs) = entries gs + 1 := by
  rcases List.eq_nil_or_concat' gs with rfl | ⟨gs, g, rfl⟩
  · rfl
  · simp only [addEntry_concat, entries, List.map_append, List.sum_append, List.map_cons, List.map_nil, List.sum_cons,
      List.sum_nil, List.length_append, List.length_singleton]
    omega

lemma entries_groups (es : List Event) : entries (groups es) = es.countP Event.isEntry := by
  suffices h : ∀ gs, entries (es.foldl addEvent gs) = entries gs + es.countP Event.isEntry by
    simpa [entries, groups] using h []
  induction es with
  | nil => exact fun gs => rfl
  | cons e es ih =>
    intro gs
    rw [List.foldl_cons, ih, List.countP_cons]
    cases e with
    | header name => simp [addEvent, entries, Event.isEntry]
    | entry key value =>
      rw [addEvent, entries_addEntry]
      simp only [Event.isEntry, if_true]
      omega
    | error message => simp [addEvent, Event.isEntry]

section Same

variable {t : IniTable} {x y : List UInt8} {error : Bool}

lemma SameReading.fits (hx : InRange t.sections.cells.length x) (hy : InRange t.sections.cells.length y)
    (h : SameReading t x y error) : FitsBuffer x ∧ FitsBuffer y := by
  obtain ⟨o, o', ho, ho', -⟩ := h
  constructor
  · by_contra hfit
    rw [(iniTableRead_eq t (show InRange _ (IniIn.mk x error).data from hx)).2 hfit] at ho
    cases ho
  · by_contra hfit
    rw [(iniTableRead_eq t (show InRange _ (IniIn.mk y error).data from hy)).2 hfit] at ho'
    cases ho'

/-- Readings that are the same complete as many errors and as many entries. -/
lemma SameReading.counts (hx : InRange t.sections.cells.length x) (hy : InRange t.sections.cells.length y)
    (h : SameReading t x y error) :
    messages (events x) = messages (events y) ∧
      (events x).countP Event.isEntry = (events y).countP Event.isEntry := by
  obtain ⟨hfx, hfy⟩ := h.fits hx hy
  obtain ⟨o, o', ho, ho', htab, herr⟩ := h
  obtain ⟨p, u, hp, hu, hc, he⟩ := (iniTableRead_eq t (show InRange _ (IniIn.mk x error).data from hx)).1 hfx
  obtain ⟨p', u', hp', hu', hc', he'⟩ := (iniTableRead_eq t (show InRange _ (IniIn.mk y error).data from hy)).1 hfy
  obtain rfl : p = o := Except.ok.inj (hp.symm.trans ho)
  obtain rfl : p' = o' := Except.ok.inj (hp'.symm.trans ho')
  obtain rfl : u = u' := Option.some.inj (hu.symm.trans (htab.trans hu'))
  have hgroups : groups (events x) = groups (events y) := List.append_cancel_left (hc.symm.trans hc')
  refine ⟨List.append_cancel_right (he.symm.trans (herr.trans he')), ?_⟩
  rw [← entries_groups, ← entries_groups, hgroups]

/-- Texts that complete the same are read the same. -/
lemma sameReading_of_events (hx : InRange t.sections.cells.length x) (hy : InRange t.sections.cells.length y)
    (hfx : FitsBuffer x) (hfy : FitsBuffer y) (he : events x = events y) : SameReading t x y error := by
  obtain ⟨o, -, ho, -⟩ := applyAll_table t (events x) hx.2
  have ho' := ho
  rw [he] at ho'
  exact ⟨_, _, readIni_fits hfx hx.1 ho, readIni_fits hfy hy.1 ho', rfl, rfl⟩

end Same

/-! ### The last line -/

/-- A newline behind the text completes nothing: the text ends in a comment, or with a line that is blank so far. -/
def Complete (x : List UInt8) : Prop :=
  (Lex.after {} x).inComment = true ∨ ((Lex.after {} x).state = .Key ∧ (Lex.after {} x).text = [])

instance : DecidablePred Complete := fun x =>
  inferInstanceAs (Decidable ((Lex.after {} x).inComment = true ∨ (_ ∧ _)))

section LastLine

variable {l : Lex} {x : List UInt8}

lemma event_newline_eq_none (l : Lex) :
    l.event LF = none ↔ l.inComment = true ∨ (l.state = .Key ∧ l.text = []) := by
  rcases hc : l.inComment with _ | _
  · rw [(next_lineEnd hc).2]
    unfold Lex.lineEvent
    cases l.state <;> simp
  · simp [Lex.event, hc]

/-- A newline needs no room. -/
lemma fits_newline {n : ℕ} (h : l.text.length ≤ n) : l.Fits n [LF] := by
  refine ⟨?_, trivial⟩
  rcases hc : l.inComment with _ | _
  · rw [(next_lineEnd hc).1]
    exact Nat.zero_le _
  · rw [Lex.next, if_pos hc, if_pos rfl, Lex.room, if_neg (by simp [hc])]
    exact h

lemma length_after_le {n : ℕ} (s : List UInt8) (h : l.text.length ≤ n) (hf : l.Fits n s) :
    (l.after s).text.length ≤ l.roomAfter n s := by
  induction s generalizing l n with
  | nil => exact h
  | cons c s ih => exact ih hf.1 hf.2

lemma fitsBuffer_newline (h : FitsBuffer x) : FitsBuffer (x ++ [LF]) := by
  rw [FitsBuffer, Lex.fits_append]
  exact ⟨h, fits_newline (length_after_le x (Nat.zero_le _) h)⟩

end LastLine

/-- **When a missing final newline does not matter**: a newline behind the text completes nothing. -/
theorem sameReading_newline_iff (t : IniTable) (x : List UInt8) (error : Bool)
    (hin : InRange t.sections.cells.length (x ++ [LF])) :
    SameReading t x (x ++ [LF]) error ↔ FitsBuffer x ∧ Complete x := by
  have hevents : events (x ++ [LF]) = events x ++ ((Lex.after {} x).event LF).toList := by
    rw [events, Lex.events_append, Lex.events, Lex.events, List.append_nil]
    rfl
  constructor
  · intro h
    refine ⟨(h.fits hin.of_append hin).1, (event_newline_eq_none _).1 ?_⟩
    obtain ⟨hm, hn⟩ := h.counts hin.of_append hin
    rw [hevents] at hm hn
    cases he : (Lex.after {} x).event LF with
    | none => rfl
    | some e =>
      rw [he, messages_append, List.self_eq_append_right] at hm
      rw [he, List.countP_append] at hn
      cases e with
      | header name =>
        rcases hc : (Lex.after {} x).inComment with _ | _
        · rw [(next_lineEnd hc).2, Lex.lineEvent] at he
          split at he
          · cases he
          · cases he
          · cases he
          · split_ifs at he
            cases he
        · simp [Lex.event, hc] at he
      | entry key value => simp [Event.isEntry] at hn
      | error message => simp [messages] at hm
  · rintro ⟨hfit, hx⟩
    refine sameReading_of_events hin.of_append hin hfit (fitsBuffer_newline hfit) ?_
    rw [hevents, (event_newline_eq_none _).2 hx]
    simp

/-- A text that ends in a comment. -/
theorem sameReading_newline_comment :
    SameReading iniTableCreate (bytes "\nk=v\n;c") (bytes "\nk=v\n;c" ++ [LF]) true :=
  (sameReading_newline_iff iniTableCreate _ true (by decide +kernel)).2 (by decide +kernel)

/-- An entry without a newline behind it is dropped. -/
theorem not_sameReading_newline :
    ¬ ∀ (t : IniTable) (x : List UInt8) (error : Bool), x ≠ [] → x.getLast? ≠ some LF →
      SameReading t x (x ++ [LF]) error := by
  intro h
  have hcount := ((h iniTableCreate (bytes "[a]\nk=v") false (by decide) (by decide)).counts (by decide +kernel)
    (by decide +kernel)).2
  exact absurd hcount (by decide +kernel)

/-! ### The first line -/

/-- Nothing but characters that the reader skips at the start of a line. -/
def Blank (b : List UInt8) : Prop := ∀ c ∈ b, c = SP ∨ c = CR

/-- Lines with a newline behind each. -/
def blankLines (bs : List (List UInt8)) : List UInt8 := bs.flatMap fun b => b ++ [LF]

/-- The first line of the text is blank. -/
def BlankFirst (x : List UInt8) : Prop := ∃ b y, Blank b ∧ x = b ++ LF :: y

section Blank

variable {l : Lex} {b : List UInt8}

lemma next_blank (hl : l.inComment = false) (ht : l.text = []) {c : UInt8} (hc : c = SP ∨ c = CR) :
    l.next c = l ∧ l.event c = none := by
  have hstart : l.AtStart := by simp [Lex.AtStart, ht]
  rcases hc with rfl | rfl
  · rw [Lex.next, if_neg (by simp [hl]), if_pos rfl, if_pos hstart]
    exact ⟨rfl, event_eq_none hl (by decide) (by decide)⟩
  · rw [Lex.next, if_neg (by simp [hl]), if_neg (by decide), if_neg (by decide), if_pos rfl]
    exact ⟨rfl, event_eq_none hl (by decide) (by decide)⟩

/-- At the start of a line the reader skips blanks. -/
lemma after_blank (hl : l.inComment = false) (ht : l.text = []) (hb : Blank b) (s : List UInt8) :
    l.events (b ++ s) = l.events s ∧ ∀ n, l.Fits n (b ++ s) ↔ l.Fits n s := by
  induction b with
  | nil => simp
  | cons c b ih =>
    obtain ⟨hc, hb⟩ := List.forall_mem_cons.1 hb
    obtain ⟨hnext, hevent⟩ := next_blank hl ht hc
    obtain ⟨h1, h2⟩ := ih hb
    refine ⟨?_, fun n => ?_⟩
    · rw [List.cons_append, Lex.events, hevent, hnext, h1]
      rfl
    · have hroom : l.room n = n := by simp [Lex.room, ht]
      rw [List.cons_append, Lex.Fits, hnext, hroom, h2]
      simp [ht]

/-- A blank line is an error in the state `Section`, and nothing in the state `Key`. -/
lemma after_blankLine (hl : l.inComment = false) (ht : l.text = []) (hb : Blank b) (s : List UInt8) :
    l.events (b ++ LF :: s) = l.lineEvent.toList ++ Lex.lineStart.events s ∧
      ∀ n, l.Fits n (b ++ LF :: s) ↔ Lex.lineStart.Fits n s := by
  obtain ⟨h1, h2⟩ := after_blank hl ht hb (LF :: s)
  obtain ⟨hnext, hevent⟩ := next_lineEnd hl
  refine ⟨by rw [h1, Lex.events, hevent, hnext], fun n => ?_⟩
  have hroom : l.room n = n := by simp [Lex.room, ht]
  rw [h2, Lex.Fits, hnext, hroom]
  simp [Lex.lineStart]

lemma after_blankLines {bs : List (List UInt8)} (hbs : ∀ b ∈ bs, Blank b) (s : List UInt8) :
    Lex.lineStart.events (blankLines bs ++ s) = Lex.lineStart.events s ∧
      ∀ n, Lex.lineStart.Fits n (blankLines bs ++ s) ↔ Lex.lineStart.Fits n s := by
  induction bs with
  | nil => simp [blankLines]
  | cons b bs ih =>
    obtain ⟨hb, hbs⟩ := List.forall_mem_cons.1 hbs
    obtain ⟨h1, h2⟩ := after_blankLine (l := Lex.lineStart) rfl rfl hb (blankLines bs ++ s)
    obtain ⟨h3, h4⟩ := ih hbs
    have hsplit : blankLines (b :: bs) ++ s = b ++ LF :: (blankLines bs ++ s) := by simp [blankLines]
    rw [hsplit]
    refine ⟨?_, fun n => (h2 n).trans (h4 n)⟩
    rw [h1, h3]
    rfl

end Blank

/-- The message for a blank line at the start. -/
def blankError : Event := .error (missingBracket (.ofBlock []))

/-- Blank lines in front of a text complete their error, and the text is read from the state `Key`. -/
lemma events_blankLines {b : List UInt8} {bs : List (List UInt8)} (hbs : ∀ b' ∈ b :: bs, Blank b') (x : List UInt8) :
    events (blankLines (b :: bs) ++ x) = blankError :: Lex.lineStart.events x ∧
      (FitsBuffer (blankLines (b :: bs) ++ x) ↔ Lex.lineStart.Fits 128 x) := by
  obtain ⟨hb, hbs⟩ := List.forall_mem_cons.1 hbs
  obtain ⟨h1, h2⟩ := after_blankLine (l := {}) rfl rfl hb (blankLines bs ++ x)
  obtain ⟨h3, h4⟩ := after_blankLines hbs x
  have hsplit : blankLines (b :: bs) ++ x = b ++ LF :: (blankLines bs ++ x) := by simp [blankLines]
  rw [hsplit]
  exact ⟨by rw [events, h1, h3]; rfl, (h2 128).trans (h4 128)⟩

/-! ### The states `Section` and `Key` on a first line -/

/-- Both readers complete something and are the same from then on, and the second has not put out more errors, unless
they have put out different numbers of entries. -/
def Meet (l m : Lex) (s : List UInt8) : Prop :=
  ∃ es es' rest, l.events s = es ++ rest ∧ m.events s = es' ++ rest ∧
    ((messages es').length ≤ (messages es).length ∨ es.countP Event.isEntry ≠ es'.countP Event.isEntry)

/-- How far a reader from the state `Key` and a reader from the state `Section` can be from each other. -/
inductive Apart (l m : Lex) : Prop
  | line (state : m.state = .Section) (inComment : m.inComment = false) (text : m.text ≠ []) (eq : l = { m with state := .Key })
  | value (state : m.state = .Section) (inComment : m.inComment = false) (state' : l.state = .Value)
      (inComment' : l.inComment = false)
  | trails (h : Trails l m)

section Meet

variable {l m : Lex} {c : UInt8} {s : List UInt8}

lemma Meet.refl (l : Lex) (s : List UInt8) : Meet l l s := ⟨[], [], _, rfl, rfl, Or.inl le_rfl⟩

/-- A character that both readers complete alike, or neither. -/
lemma Meet.cons (h : Meet (l.next c) (m.next c) s) (he : l.event c = m.event c) : Meet l m (c :: s) := by
  obtain ⟨es, es', rest, h1, h2, h3⟩ := h
  refine ⟨(m.event c).toList ++ es, (m.event c).toList ++ es', rest, ?_, ?_, ?_⟩
  · rw [Lex.events, h1, he, List.append_assoc]
  · rw [Lex.events, h2, List.append_assoc]
  · rcases h3 with h3 | h3
    · left
      simp only [messages_append, List.length_append]
      omega
    · right
      simp only [List.countP_append]
      omega

/-- A character behind which both readers are the same. -/
lemma Meet.of_next_eq (hnext : l.next c = m.next c)
    (h : (messages (m.event c).toList).length ≤ (messages (l.event c).toList).length ∨
      (l.event c).toList.countP Event.isEntry ≠ (m.event c).toList.countP Event.isEntry) : Meet l m (c :: s) :=
  ⟨_, _, (m.next c).events s, by rw [Lex.events, hnext], rfl, h⟩

/-- The longer line ends: `[` and a newline complete at most one event, and an error only where the other reader has one. -/
lemma Trails.meet (h : Trails l m) (s : List UInt8) :
    ∃ es es' rest, l.events s = es ++ rest ∧ m.events s = es' ++ rest ∧
      (messages es').length ≤ (messages es).length := by
  induction s generalizing l m with
  | nil => exact ⟨[], [], [], rfl, rfl, le_rfl⟩
  | cons c s ih =>
    have hgo : Trails (l.next c) (m.next c) → m.event c = none → ∃ es es' rest,
        l.events (c :: s) = es ++ rest ∧ m.events (c :: s) = es' ++ rest ∧
          (messages es').length ≤ (messages es).length := by
      intro ht hnone
      obtain ⟨es, es', rest, h1, h2, h3⟩ := ih ht
      refine ⟨(l.event c).toList ++ es, es', rest, ?_, ?_, ?_⟩
      · rw [Lex.events, h1, List.append_assoc]
      · rw [Lex.events, h2, hnone]
        rfl
      · rw [messages_append, List.length_append]
        omega
    rcases hm : m.inComment with _ | _
    · have hl := h.inComment_false hm
      by_cases hlf : c = LF
      · subst hlf
        obtain ⟨hnext, hevent⟩ := next_lineEnd hl
        obtain ⟨hnext', hevent'⟩ := next_lineEnd hm
        refine ⟨l.lineEvent.toList, m.lineEvent.toList, Lex.lineStart.events s, ?_, ?_, ?_⟩
        · rw [Lex.events, hevent, hnext]
        · rw [Lex.events, hevent', hnext']
        · rcases h.state with hst | hst
          · simp [Lex.lineEvent, hst, messages]
          · simp [Lex.lineEvent, hst, h.bracket hst, messages]
      by_cases hrb : c = RBRACKET
      · subst hrb
        obtain ⟨hnext, hevent⟩ := next_headerEnd hl
        obtain ⟨hnext', hevent'⟩ := next_headerEnd hm
        refine ⟨(l.event RBRACKET).toList, (m.event RBRACKET).toList, Lex.lineStart.events s, ?_, ?_, ?_⟩
        · rw [Lex.events, hnext]
        · rw [Lex.events, hnext']
        · simp [hevent, hevent', messages]
      · exact hgo (h.stepOut hm hlf hrb) (event_eq_none hm hlf hrb)
    · exact hgo (h.stepIn hm c) (by rw [Lex.event, if_pos hm])

/-- A value that the other reader takes for a section name. -/
lemma Apart.meet_value (ih : ∀ {l m : Lex}, Apart l m → Meet l m s) (state : m.state = .Section)
    (inComment : m.inComment = false) (state' : l.state = .Value) (inComment' : l.inComment = false) :
    Meet l m (c :: s) := by
  by_cases hlf : c = LF
  · subst hlf
    obtain ⟨hnext, hevent⟩ := next_lineEnd inComment'
    obtain ⟨hnext', hevent'⟩ := next_lineEnd inComment
    refine .of_next_eq (hnext.trans hnext'.symm) (Or.inr ?_)
    rw [hevent, hevent']
    simp [Lex.lineEvent, state, state', Event.isEntry]
  by_cases hrb : c = RBRACKET
  · subst hrb
    obtain ⟨hnext, hevent⟩ := next_headerEnd inComment'
    obtain ⟨hnext', hevent'⟩ := next_headerEnd inComment
    refine .of_next_eq (hnext.trans hnext'.symm) (Or.inl ?_)
    rw [hevent, hevent']
    simp [messages]
  refine .cons (ih ?_) ((event_eq_none inComment' hlf hrb).trans (event_eq_none inComment hlf hrb).symm)
  obtain ⟨hst, hopen⟩ := state_next inComment (Or.inr state) hlf hrb
  by_cases hm : c = SEMICOLON ∨ c = HASH
  · -- a comment for the one reader, and still the value for the other
    rw [if_pos hm] at hst
    rw [decide_eq_true hm] at hopen
    exact .trails ⟨Or.inl hst, fun e => absurd (hst.symm.trans e) (by decide), fun _ => hst, fun _ => hopen⟩
  rw [if_neg hm] at hst
  rw [decide_eq_false hm] at hopen
  have hst : (m.next c).state = .Section := by
    rw [hst]
    split_ifs
    · rfl
    · exact state
  by_cases hlb : c = LBRACKET
  · subst hlb
    have hnext : l.next LBRACKET = { l with state := .Section } := next_openBracket inComment'
    exact .trails ⟨Or.inr hst, fun _ => by rw [hnext], by simp [hopen], by simp [hnext, inComment']⟩
  · have hnext : (l.next c).state = .Value ∧ (l.next c).inComment = false := by
      by_cases hsp : c = SP
      · rw [hsp, next_space inComment']
        split_ifs
        · exact ⟨state', inComment'⟩
        · exact ⟨state', inComment'⟩
      by_cases hcr : c = CR
      · rw [hcr, next_return inComment']
        exact ⟨state', inComment'⟩
      rw [next_put inComment' hsp hm hcr hlf hlb hrb fun e => absurd (state'.symm.trans e.2) (by decide)]
      exact ⟨state', inComment'⟩
    exact .value hst hopen hnext.1 hnext.2

/-- A key that the other reader takes for a section name. -/
lemma Apart.meet_line (ih : ∀ {l m : Lex}, Apart l m → Meet l m s) (state : m.state = .Section)
    (inComment : m.inComment = false) (text : m.text ≠ []) : Meet { m with state := .Key } m (c :: s) := by
  have inComment' : ({ m with state := .Key } : Lex).inComment = false := inComment
  by_cases hlf : c = LF
  · subst hlf
    obtain ⟨hnext, hevent⟩ := next_lineEnd inComment
    obtain ⟨hnext', hevent'⟩ := next_lineEnd inComment'
    refine .of_next_eq (hnext'.trans hnext.symm) (Or.inl ?_)
    rw [hevent, hevent']
    simp [Lex.lineEvent, state, text, messages]
  by_cases hrb : c = RBRACKET
  · subst hrb
    obtain ⟨hnext, hevent⟩ := next_headerEnd inComment
    obtain ⟨hnext', hevent'⟩ := next_headerEnd inComment'
    refine .of_next_eq (hnext'.trans hnext.symm) (Or.inl ?_)
    rw [hevent, hevent']
  refine .cons ?_ ((event_eq_none inComment' hlf hrb).trans (event_eq_none inComment hlf hrb).symm)
  obtain ⟨u, hu⟩ := text_next (l := m) (Or.inr ⟨hlf, hrb⟩)
  have hne : (m.next c).text ≠ [] := by simp [hu, text]
  have hv : m.state ≠ .Value := by rw [state]; decide
  by_cases hm : c = SEMICOLON ∨ c = HASH
  · rw [next_mark inComment' (by simp) hm, next_mark inComment hv hm]
    exact .refl _ _
  by_cases hlb : c = LBRACKET
  · subst hlb
    rw [next_openBracket inComment', next_openBracket inComment]
    exact .refl _ _
  obtain ⟨hst, hopen⟩ := state_next inComment (Or.inr state) hlf hrb
  rw [if_neg hm, if_neg hlb, state] at hst
  rw [decide_eq_false hm] at hopen
  by_cases heq : c = EQUALS ∨ c = COLON
  · refine ih (.value hst hopen ?_ ?_)
    · rw [next_equals inComment' rfl heq]
    · rw [next_equals inComment' rfl heq]
      exact inComment
  refine ih (.line hst hopen hne ?_)
  by_cases hsp : c = SP
  · have hat : ({ m with state := .Key } : Lex).AtStart ↔ m.AtStart := by simp [Lex.AtStart, Lex.start, state]
    rw [hsp, next_space inComment', next_space inComment]
    by_cases ha : m.AtStart
    · rw [if_pos ha, if_pos (hat.2 ha)]
    · rw [if_neg ha, if_neg (mt hat.1 ha)]
  by_cases hcr : c = CR
  · rw [hcr, next_return inComment', next_return inComment]
  rw [next_put inComment' hsp hm hcr hlf hlb hrb fun e => heq e.1,
    next_put inComment hsp hm hcr hlf hlb hrb fun e => heq e.1]
  rfl

/-- **Where the two readers meet.** -/
lemma Apart.meet (h : Apart l m) (s : List UInt8) : Meet l m s := by
  induction s generalizing l m with
  | nil => exact ⟨[], [], [], rfl, rfl, Or.inl le_rfl⟩
  | cons c s ih =>
    cases h with
    | line state inComment text eq =>
      subst eq
      exact Apart.meet_line ih state inComment text
    | value state inComment state' inComment' => exact Apart.meet_value ih state inComment state' inComment'
    | trails h =>
      obtain ⟨es, es', rest, h1, h2, h3⟩ := h.meet (c :: s)
      exact ⟨es, es', rest, h1, h2, Or.inl h3⟩

end Meet

/-- The text with the blanks at its start split off. -/
lemma split_blank (x : List UInt8) : ∃ b y, Blank b ∧ x = b ++ y ∧ ∀ c ∈ y.head?, c ≠ SP ∧ c ≠ CR := by
  induction x with
  | nil => exact ⟨[], [], by simp [Blank], rfl, by simp⟩
  | cons c x ih =>
    by_cases hc : c = SP ∨ c = CR
    · obtain ⟨b, y, h1, h2, h3⟩ := ih
      exact ⟨c :: b, y, List.forall_mem_cons.2 ⟨hc, h1⟩, by rw [h2]; rfl, h3⟩
    · exact ⟨[], c :: x, by simp [Blank], rfl, by simpa using not_or.1 hc⟩

/-- The two readers on a text whose first line is not blank. -/
lemma meet_first {x : List UInt8} (hx : ¬ BlankFirst x) : Meet .lineStart {} x := by
  obtain ⟨b, y, hb, rfl, hy⟩ := split_blank x
  have hmeet : Meet .lineStart {} y := by
    cases y with
    | nil => exact ⟨[], [], [], rfl, rfl, Or.inl le_rfl⟩
    | cons c y =>
      obtain ⟨hsp, hcr⟩ := hy c rfl
      have hl : Lex.lineStart.inComment = false := rfl
      have hm : ({} : Lex).inComment = false := rfl
      by_cases hlf : c = LF
      · subst hlf
        exact absurd ⟨b, y, hb, rfl⟩ hx
      by_cases hrb : c = RBRACKET
      · subst hrb
        exact .of_next_eq rfl (Or.inl le_rfl)
      refine .cons ?_ ((event_eq_none hl hlf hrb).trans (event_eq_none hm hlf hrb).symm)
      by_cases hmark : c = SEMICOLON ∨ c = HASH
      · rw [next_mark hl (by decide) hmark, next_mark hm (by decide) hmark]
        exact .refl _ _
      by_cases hlb : c = LBRACKET
      · subst hlb
        exact .refl _ _
      rw [next_put hm hsp hmark hcr hlf hlb hrb fun e => absurd e.2 (by decide)]
      by_cases heq : c = EQUALS ∨ c = COLON
      · rw [next_equals hl rfl heq]
        exact Apart.meet (.value rfl rfl rfl rfl) y
      · rw [next_put hl hsp hmark hcr hlf hlb hrb fun e => heq e.1]
        exact Apart.meet (m := ({} : Lex).put c) (.line rfl rfl (by simp [Lex.put]) rfl) y
  obtain ⟨es, es', rest, h1, h2, h3⟩ := hmeet
  refine ⟨es, es', rest, ?_, ?_, h3⟩
  · rw [(after_blank rfl rfl hb y).1, h1]
  · rw [(after_blank rfl rfl hb y).1, h2]

/-- **When blank lines at the start do not matter**: the text starts with a blank line itself. -/
theorem sameReading_blank_iff (t : IniTable) (bs : List (List UInt8)) (x : List UInt8) (error : Bool)
    (hbs : ∀ b ∈ bs, Blank b) (hin : InRange t.sections.cells.length x)
    (hin' : InRange t.sections.cells.length (blankLines bs ++ x)) :
    SameReading t (blankLines bs ++ x) x error ↔ FitsBuffer x ∧ (bs = [] ∨ BlankFirst x) := by
  cases bs with
  | nil =>
    constructor
    · intro h
      exact ⟨(h.fits hin' hin).2, Or.inl rfl⟩
    · rintro ⟨hfit, -⟩
      exact sameReading_of_events hin' hin hfit hfit rfl
  | cons b bs =>
    obtain ⟨hevents, hfits⟩ := events_blankLines hbs x
    constructor
    · intro h
      refine ⟨(h.fits hin' hin).2, Or.inr ?_⟩
      by_contra hx
      obtain ⟨es, es', rest, h1, h2, h3⟩ := meet_first hx
      obtain ⟨hm, hn⟩ := h.counts hin' hin
      rw [hevents, events, h1, h2] at hm hn
      simp only [messages, blankError, List.filterMap_cons, List.filterMap_append] at hm
      have hlen := congrArg List.length hm
      simp only [List.length_cons, List.length_append] at hlen
      simp only [List.countP_cons, blankError, Event.isEntry, List.countP_append] at hn
      rcases h3 with h3 | h3
      · unfold messages at h3
        omega
      · simp at hn
        omega
    · rintro ⟨hfit, hx⟩
      obtain ⟨b', y, hb', rfl⟩ := hx.resolve_left (by simp)
      obtain ⟨h1, h2⟩ := after_blankLine (l := {}) rfl rfl hb' y
      obtain ⟨h3, h4⟩ := after_blankLine (l := .lineStart) rfl rfl hb' y
      refine sameReading_of_events hin' hin ?_ hfit ?_
      · rw [hfits, h4]
        exact (h2 128).1 hfit
      · rw [hevents, h3, events, h1]
        rfl

/-- A text whose first line is blank. -/
theorem sameReading_blank : SameReading iniTableCreate (blankLines [[], [SP]] ++ bytes "\nk=v\n") (bytes "\nk=v\n") false :=
  (sameReading_blank_iff iniTableCreate [[], [SP]] _ false (by simp [Blank]) (by decide +kernel) (by decide +kernel)).2
    ⟨by decide +kernel, Or.inr ⟨[], bytes "k=v\n", by simp [Blank], rfl⟩⟩

/-- A blank line in front of a header is an error. -/
theorem not_sameReading_blank :
    ¬ ∀ (t : IniTable) (bs : List (List UInt8)) (x : List UInt8) (error : Bool), (∀ b ∈ bs, Blank b) →
      SameReading t (blankLines bs ++ x) x error := by
  intro h
  have hmess := ((h iniTableCreate [[]] (bytes "[a]\n") false (by simp [Blank])).counts (by decide +kernel)
    (by decide +kernel)).1
  exact absurd hmess (by decide +kernel)

end Wrensong.Ini
