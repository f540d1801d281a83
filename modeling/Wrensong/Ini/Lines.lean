import Wrensong.Ini.Comment
import Wrensong.Ini.RoundTrip
import Wrensong.Ini.Stored

/-!
# Reading the written lines

The lines that `writeSection` and `writeEntry` put out, with strings that come from a reader. A string that is `Kept` comes
back from its line (`header_line`, `entry_line`). With another one the line completes something else than what was
written: `Lex.Misses l k` says that whatever comes behind the line so far, its name or key is not `k`. A comment line with
`;` is completed by a newline behind it, and goes on with any other line (`commentEnd_newline`, `commentEnd_entry`).
-/

namespace Wrensong.Ini

open Wrensong.Lib Wrensong.Lib.Bytes

/-! ### Strings that are kept -/

/-- The character starts a comment or ends the key, on a line that the reader is in the state `st` on. -/
def Breaks (st : LineState) (c : UInt8) : Prop :=
  (st ≠ .Value ∧ (c = SEMICOLON ∨ c = HASH)) ∨ (st = .Key ∧ (c = EQUALS ∨ c = COLON))

instance (st : LineState) : DecidablePred (Breaks st) := fun c =>
  inferInstanceAs (Decidable ((st ≠ .Value ∧ (c = SEMICOLON ∨ c = HASH)) ∨ (st = .Key ∧ (c = EQUALS ∨ c = COLON))))

/-- A string with no such character and no trailing space. -/
def Kept (st : LineState) (s : List UInt8) : Prop := (∀ c ∈ s, ¬ Breaks st c) ∧ s.getLast? ≠ some SP

instance (st : LineState) : DecidablePred (Kept st) := fun s =>
  have : Decidable (∀ c ∈ s, ¬ Breaks st c) := List.decidableBAll _ s
  inferInstanceAs (Decidable ((∀ c ∈ s, ¬ Breaks st c) ∧ s.getLast? ≠ some SP))

/-! ### Which names a line can complete -/

/-- The event is a header or an entry with this name or key. -/
def Event.Names (k : CString) : Event → Prop
  | .header name => name = k
  | .entry key _ => key = k
  | .error _ => False

/-- Whatever comes behind the line so far, its name or key is another one. -/
def Lex.Misses (l : Lex) (k : CString) : Prop := ∀ u, cstr (l.text ++ u) ≠ k.val

section Misses

variable {l : Lex} {k : CString} {c : UInt8}

lemma misses_of_clear (hc : Clear none l.text) (hk : ¬ l.text <+: k.val) : l.Misses k := by
  intro u e
  refine hk ?_
  rw [← e, cstr_append_of_clear hc]
  exact List.prefix_append _ _

lemma misses_of_nul (hc : NUL ∈ l.text) (hk : cstr l.text ≠ k.val) : l.Misses k := by
  intro u
  rwa [cstr_append_of_mem hc]

lemma Lex.Misses.text (h : l.Misses k) : CString.ofBlock l.text ≠ k := by
  intro e
  refine h [] ?_
  rw [List.append_nil, ← e]
  rfl

lemma Lex.Misses.lineEvent (h : l.Misses k) : ∀ e ∈ l.lineEvent, ¬ e.Names k := by
  intro e he
  unfold Lex.lineEvent at he
  cases hst : l.state with
  | Value =>
    simp only [hst, Option.mem_some_iff] at he
    subst he
    exact h.text
  | Comment =>
    simp only [hst, Option.mem_some_iff] at he
    subst he
    exact h.text
  | Section =>
    simp only [hst, Option.mem_some_iff] at he
    subst he
    exact id
  | Key =>
    simp only [hst] at he
    split_ifs at he
    · cases he
    · rw [Option.mem_some_iff] at he
      subst he
      exact id

lemma Lex.Misses.event (h : l.Misses k) : ∀ e ∈ l.event c, ¬ e.Names k := by
  intro e he
  unfold Lex.event at he
  split_ifs at he
  · cases he
  · exact h.lineEvent e he
  · rw [Option.mem_some_iff] at he
    subst he
    exact h.text
  · cases he

lemma Lex.Misses.next (h : l.Misses k) (hc : l.event c = none) : (l.next c).Misses k := by
  have hne : l.text ≠ [] := by
    intro e
    refine h k.val ?_
    rw [e, List.nil_append, cstr_of_clear k.clear]
  have hgo : l.inComment = true ∨ (c ≠ LF ∧ c ≠ RBRACKET) := by
    by_contra hcon
    obtain ⟨hl, hend⟩ := not_or.1 hcon
    have hl' : l.inComment = false := by simpa using hl
    by_cases hlf : c = LF
    · rw [hlf, (next_lineEnd hl').2] at hc
      unfold Lex.lineEvent at hc
      cases hst : l.state <;> simp [hst, hne] at hc
    · have hrb : c = RBRACKET := by
        by_contra hrb
        exact hend ⟨hlf, hrb⟩
      rw [hrb, (next_headerEnd hl').2] at hc
      cases hc
  obtain ⟨u, hu⟩ := text_next hgo
  intro v
  rw [hu, List.append_assoc]
  exact h (u ++ v)

/-- **The first thing completed has another name.** -/
lemma Lex.Misses.head (h : l.Misses k) (s : List UInt8) : ∀ e ∈ (l.events s).head?, ¬ e.Names k := by
  induction s generalizing l with
  | nil => exact fun e he => by cases he
  | cons c s ih =>
    intro e he
    rw [Lex.events] at he
    cases hev : l.event c with
    | none =>
      rw [hev] at he
      exact ih (h.next hev) e he
    | some e' =>
      rw [hev] at he
      cases he
      exact h.event e (by simpa using hev)

end Misses

/-! ### Lines -/

section Strings

variable {st : LineState} {l : Lex} {k : CString}

lemma Letter.not_breaks {c : UInt8} (h : Letter st c) : ¬ Breaks st c := by
  obtain ⟨-, -, -, -, -, hm, he⟩ := h
  rintro (⟨hst, hc⟩ | ⟨hst, hc⟩)
  · exact hc.elim (hm hst).1 (hm hst).2
  · exact hc.elim (he hst).1 (he hst).2

/-- A name or key from a reader, up to the first character that does not belong to one. -/
lemma StoredKey.split {s : List UInt8} (hst : st ≠ .Value) (h : StoredKey s) (h0 : NUL ∉ s) :
    ∃ p r, s = p ++ r ∧ Spelled st p ∧ ∀ c ∈ r.head?, Breaks st c := by
  set p := s.takeWhile fun c => ¬ Breaks st c with hp
  have hpre : p <+: s := List.takeWhile_prefix _
  have hbreaks : ∀ c ∈ p, ¬ Breaks st c := fun c hc => by simpa using List.mem_takeWhile_imp hc
  have hmark : Unmarked p := fun c hc hm => hbreaks c hc (Or.inl ⟨hst, hm⟩)
  refine ⟨p, s.dropWhile fun c => ¬ Breaks st c, List.takeWhile_append_dropWhile.symm,
    ⟨?_, head?_ne_of_isPrefix h.leading hpre, fun e => absurd e hst⟩, ?_⟩
  · intro c hc
    obtain ⟨hcr, hlb, hrb⟩ := h.lead p hpre hmark c hc
    refine ⟨fun e => h.line (e ▸ hpre.subset hc), hcr, fun e => h0 (e ▸ hpre.subset hc), hlb, hrb, fun _ => ?_, ?_⟩
    · exact not_or.1 (hmark c hc)
    · intro hk
      exact not_or.1 fun e => hbreaks c hc (Or.inr ⟨hk, e⟩)
  · intro c hc
    by_contra hb
    have hnot := List.head?_dropWhile_not (fun c => decide ¬ Breaks st c) s
    rw [Option.mem_def.1 hc] at hnot
    simp [hb] at hnot

lemma exists_next_space (hl : l.inComment = false) : ∃ i, l.next SP = { l with spaces := i } := by
  rw [next_space hl]
  split_ifs
  · exact ⟨l.spaces, rfl⟩
  · exact ⟨l.spaces + 1, rfl⟩

/-- **A name or key from a reader, on a line.** All of it is in the line when it is kept. -/
lemma after_stored (hv : st ≠ .Value) (hl : l.state = st) (hc : l.inComment = false) (hn : l.text = [])
    (hs : l.spaces = 0) (h : StoredKey k.val) :
    ∃ q j r, k.val = q ++ List.replicate j SP ++ r ∧ (∀ c ∈ r.head?, Breaks st c) ∧
      (Kept st k.val ↔ r = [] ∧ j = 0) ∧ Clear none q ∧
      l.after (q ++ List.replicate j SP) = { l with text := q, spaces := j } ∧
      l.events (q ++ List.replicate j SP) = [] := by
  obtain ⟨p, r, hk, hp, hr⟩ := h.split hv k.noNul
  have hstart : l.start = l.text.length := by rw [Lex.start, if_neg (hl ▸ hv), hn, List.length_nil]
  obtain ⟨q, j, rfl, hq, hafter, hevents⟩ := after_word hp hl hc hs hstart
  rw [hn, List.nil_append] at hafter
  have hclear := k.clear
  rw [hk] at hclear
  simp only [clear_append] at hclear
  refine ⟨q, j, r, hk, hr, ?_, hclear.1.1, hafter, hevents⟩
  constructor
  · rintro ⟨hbreaks, hlast⟩
    have hnil : r = [] := by
      cases r with
      | nil => rfl
      | cons c r => exact absurd (hr c rfl) (hbreaks c (by simp [hk]))
    rw [hk, hnil, List.append_nil] at hlast
    exact ⟨hnil, spaces_eq_zero hlast⟩
  · rintro ⟨rfl, rfl⟩
    rw [hk, List.replicate_zero, List.append_nil, List.append_nil]
    exact ⟨fun c hc => (hp.letters c (List.mem_append_left _ hc)).not_breaks, hq⟩

lemma Kept.not_semicolon {s : List UInt8} (h : Kept .Key s) : s.head? ≠ some SEMICOLON := fun hs =>
  h.1 _ (List.mem_of_head? hs) (Or.inl ⟨by simp, Or.inl rfl⟩)

/-- A string whose trailing spaces are lost is another string. -/
lemma ofBlock_ne {q r : List UInt8} {j : ℕ} (hk : k.val = q ++ List.replicate j SP ++ r) (h : ¬ (r = [] ∧ j = 0)) :
    q ≠ k.val := by
  intro e
  have hlen := congrArg List.length hk
  rw [← e] at hlen
  simp only [List.length_append, List.length_replicate] at hlen
  exact h ⟨List.eq_nil_of_length_eq_zero (by omega), by omega⟩

/-- **A mark in a name or key** makes the rest of the line a comment, up to its end. -/
lemma misses_comment {q r z : List UInt8} {j : ℕ} {c : UInt8} (hl : l.inComment = false) (hv : l.state ≠ .Value)
    (hq : l.text = q) (hk : k.val = q ++ List.replicate j SP ++ c :: r) (hm : c = SEMICOLON ∨ c = HASH)
    (hlf : LF ∉ c :: (r ++ z)) (h0 : Clear none z) (hz : z ≠ []) (s : List UInt8) :
    ∀ e ∈ (l.events (c :: (r ++ z) ++ LF :: s)).head?, ¬ e.Names k := by
  have hmark : Marked (c :: (r ++ z)) := by simpa [Marked] using hm
  obtain ⟨hafter, hevents⟩ := after_comment hl hv hmark hlf
  have hclear := k.clear
  rw [hk] at hclear
  simp only [clear_append, clear_cons] at hclear
  have hmiss : (l.after (c :: (r ++ z) ++ [LF])).Misses k := by
    rw [hafter, hq]
    refine misses_of_clear ?_ ?_
    · simp only [clear_append, clear_cons]
      exact ⟨hclear.1.1, hclear.2.1, hclear.2.2, h0⟩
    · change ¬ q ++ c :: (r ++ z) <+: k.val
      rw [hk, List.append_assoc, List.prefix_append_right_inj]
      cases j with
      | zero =>
        intro hpre
        have hlen := hpre.length_le
        have := List.length_pos_iff.2 hz
        simp only [List.replicate_zero, List.nil_append, List.length_cons, List.length_append] at hlen
        omega
      | succ j =>
        rw [List.replicate_succ, List.cons_append, List.cons_prefix_cons]
        rintro ⟨rfl, -⟩
        exact absurd hm (by decide)
  rw [show c :: (r ++ z) ++ LF :: s = c :: (r ++ z) ++ [LF] ++ s by simp, Lex.events_append, hevents, List.nil_append]
  exact hmiss.head s

end Strings

section Header

variable {l : Lex} {n : CString}

/-- A section header, up to the part of the name that does not belong to it. -/
lemma events_header (hl : l = {} ∨ l = .lineStart) (hn : StoredKey n.val) :
    ∃ q j r, n.val = q ++ List.replicate j SP ++ r ∧ (∀ c ∈ r.head?, Breaks .Section c) ∧
      (Kept .Section n.val ↔ r = [] ∧ j = 0) ∧ Clear none q ∧
      ∀ s, l.events (LBRACKET :: n.val ++ [RBRACKET, LF] ++ s) =
        Lex.events { text := q, spaces := j } (r ++ RBRACKET :: LF :: s) := by
  have hst : LineState.Section ≠ .Value := by decide
  obtain ⟨q, j, r, hk, hr, hkept, hq, hafter, hevents⟩ := after_stored (l := {}) hst rfl rfl rfl rfl hn
  refine ⟨q, j, r, hk, hr, hkept, hq, fun s => ?_⟩
  have hopen : ∀ t, l.events (LBRACKET :: t) = Lex.events {} t := by
    intro t
    rcases hl with rfl | rfl
    · rfl
    · rfl
  rw [List.append_assoc, List.cons_append, hopen, hk, List.append_assoc, Lex.events_append, hevents, hafter]
  rfl

/-- The `]` of a section header. -/
lemma events_close (q : List UInt8) (j : ℕ) (s : List UInt8) :
    Lex.events { text := q, spaces := j } (RBRACKET :: LF :: s) =
      .header (.ofBlock q) :: Lex.lineStart.events s := rfl

/-- **A section header with a name that is kept**, from the start of the text or of a line. -/
lemma header_line (hl : l = {} ∨ l = .lineStart) (hn : StoredKey n.val) (hp : Kept .Section n.val) (s : List UInt8) :
    l.events (LBRACKET :: n.val ++ [RBRACKET, LF] ++ s) = .header n :: Lex.lineStart.events s := by
  obtain ⟨q, j, r, hk, -, hkept, hq, hevents⟩ := events_header hl hn
  obtain ⟨rfl, rfl⟩ := hkept.1 hp
  have hname : CString.ofBlock q = n := by
    ext1
    rw [CString.ofBlock_val, cstr_of_clear hq, hk]
    simp
  rw [hevents, List.nil_append, events_close, hname]

/-- **A section header with another name.** -/
lemma header_misses (hl : l = {} ∨ l = .lineStart) (hn : StoredKey n.val) (hp : ¬ Kept .Section n.val)
    (s : List UInt8) : ∀ e ∈ (l.events (LBRACKET :: n.val ++ [RBRACKET, LF] ++ s)).head?, ¬ e.Names n := by
  obtain ⟨q, j, r, hk, hr, hkept, hq, hevents⟩ := events_header hl hn
  rw [hevents]
  cases r with
  | nil =>
    have hne := ofBlock_ne hk (mt hkept.2 hp)
    rw [List.nil_append, events_close]
    intro e he
    cases he
    intro e
    refine hne ?_
    rw [← e, CString.ofBlock_val, cstr_of_clear hq]
  | cons c r =>
    have hmark : c = SEMICOLON ∨ c = HASH := by
      rcases hr c rfl with ⟨-, h⟩ | ⟨h, -⟩
      · exact h
      · cases h
    have hlf : LF ∉ c :: (r ++ [RBRACKET]) := by
      have := hn.line
      rw [hk] at this
      simp only [List.mem_append, List.mem_cons, not_or] at this ⊢
      exact ⟨this.2.1, this.2.2, by decide, by simp⟩
    have hmiss := misses_comment (l := { text := q, spaces := j }) (z := [RBRACKET]) rfl (fun e => by cases e) rfl hk
      hmark hlf (by decide) (by simp) s
    simpa using hmiss

end Header

/-- The reader behind the `=` of the key `q`. -/
def Lex.valueStart (q : List UInt8) : Lex := { state := .Value, text := q ++ [NUL], value := q.length + 1 }

section Entry

variable {q : List UInt8} {j : ℕ} {k : CString} {e : IniEntry}

lemma next_valueStart {c : UInt8} (hc : c = EQUALS ∨ c = COLON) :
    Lex.next { Lex.lineStart with text := q, spaces := j } c = .valueStart q ∧
      Lex.event { Lex.lineStart with text := q, spaces := j } c = none := by
  constructor
  · rw [next_equals rfl rfl hc]
    rfl
  · rcases hc with rfl | rfl
    · rfl
    · rfl

/-- The ` = ` that the writer puts behind a key. -/
lemma events_equals (q : List UInt8) (j : ℕ) (s : List UInt8) :
    Lex.events { Lex.lineStart with text := q, spaces := j } (bytes " = " ++ s) = (Lex.valueStart q).events s := by
  obtain ⟨i, hi⟩ := exists_next_space (l := { Lex.lineStart with text := q, spaces := j }) rfl
  obtain ⟨hnext, hevent⟩ := next_valueStart (q := q) (j := i) (Or.inl rfl : EQUALS = EQUALS ∨ EQUALS = COLON)
  have hlead : (Lex.valueStart q).next SP = .valueStart q := by
    rw [next_space rfl, if_pos]
    simp [Lex.AtStart, Lex.start, Lex.valueStart]
  have hbytes : bytes " = " = [SP, EQUALS, SP] := by decide
  rw [hbytes, List.cons_append, List.cons_append, List.cons_append, List.nil_append, Lex.events, hi, Lex.events, hnext,
    hevent, Lex.events, hlead]
  rfl

/-- The line of another key. -/
lemma misses_valueStart (hq : Clear none q) (hk : q ≠ k.val) : (Lex.valueStart q).Misses k := by
  refine misses_of_nul (by simp [Lex.valueStart]) ?_
  change cstr (q ++ [NUL]) ≠ k.val
  rwa [cstr_append_nul hq]

/-- The value of an entry comes back without its trailing spaces. -/
lemma value_line {k value : CString} (hv : StoredValue value.val) (s : List UInt8) :
    ∃ w, (w = value ↔ Kept .Value value.val) ∧
      (Lex.valueStart k.val).events (value.val ++ LF :: s) = .entry k w :: Lex.lineStart.events s := by
  have hword : Spelled .Value value.val := by
    refine ⟨fun c hc => ?_, hv.leading, fun _ => hv.comment⟩
    obtain ⟨hlf, hcr, hlb, hrb⟩ := hv.letters c hc
    exact ⟨hlf, hcr, fun e => value.noNul (e ▸ hc), hlb, hrb, fun e => absurd rfl e, fun e => by cases e⟩
  obtain ⟨w, j, hw, hlast, hafter, hevents⟩ := after_word (l := .valueStart k.val) hword rfl rfl rfl
    (by simp [Lex.start, Lex.valueStart])
  have hclear : Clear none w := by
    have := value.clear
    rw [hw, clear_append] at this
    exact this.1
  have hval : (CString.ofBlock w).val = w := cstr_of_clear hclear
  refine ⟨.ofBlock w, ?_, ?_⟩
  · constructor
    · rintro rfl
      rw [hval]
      refine ⟨fun c _ => ?_, hlast⟩
      rintro (⟨h, -⟩ | ⟨h, -⟩)
      · exact h rfl
      · cases h
    · rintro ⟨-, hp⟩
      have hj : j = 0 := spaces_eq_zero (hw ▸ hp)
      ext1
      rw [hval, hw, hj, List.replicate_zero, List.append_nil]
  · rw [Lex.events_append, hevents, hafter, List.nil_append]
    set m : Lex := { Lex.valueStart k.val with text := (Lex.valueStart k.val).text ++ w, spaces := j } with hm
    have hline : m.events (LF :: s) =
        .entry (.ofBlock m.text) (.ofBlock (m.text.drop m.value)) :: Lex.lineStart.events s := rfl
    have hkey : CString.ofBlock m.text = k := by
      ext1
      simp [hm, Lex.valueStart, cstr_append_nul k.clear]
    have hdrop : m.text.drop m.value = w := by simp [hm, Lex.valueStart]
    rw [hline, hkey, hdrop]

/-- **An entry with a key that is kept** completes the key, and the value without its trailing spaces. -/
lemma entry_line (he : StoredEntry e.key e.value) (hp : Kept .Key e.key.val) (s : List UInt8) :
    ∃ w, (w = e.value ↔ Kept .Value e.value.val) ∧
      Lex.lineStart.events (writeEntry e ++ s) = .entry e.key w :: Lex.lineStart.events s := by
  have hst : LineState.Key ≠ .Value := by decide
  obtain ⟨q, j, r, hk, -, hkept, -, hafter, hevents⟩ := after_stored (l := .lineStart) hst rfl rfl rfl rfl he.key
  obtain ⟨rfl, rfl⟩ := hkept.1 hp
  obtain ⟨w, hw, hline⟩ := value_line (k := e.key) he.value s
  refine ⟨w, hw, ?_⟩
  rw [List.append_nil] at hk
  rw [← hk] at hafter hevents
  have hq : e.key.val = q := by simpa using hk
  rw [writeEntry, if_neg hp.not_semicolon, ← hline, ← events_equals e.key.val 0]
  simp only [List.append_assoc, List.singleton_append]
  rw [Lex.events_append, hevents, List.nil_append, hafter, hq]

/-- **An entry with another key**, if it is no comment with `;`. -/
lemma entry_misses (he : StoredEntry e.key e.value) (hp : ¬ Kept .Key e.key.val)
    (hs : e.key.val.head? ≠ some SEMICOLON) (s : List UInt8) :
    ∀ ev ∈ (Lex.lineStart.events (writeEntry e ++ s)).head?, ¬ ev.Names e.key := by
  have hst : LineState.Key ≠ .Value := by decide
  obtain ⟨q, j, r, hk, hr, hkept, hclear, hafter, hevents⟩ := after_stored (l := .lineStart) hst rfl rfl rfl rfl he.key
  have hne := ofBlock_ne hk (mt hkept.2 hp)
  have hmiss := misses_valueStart hclear hne
  have hline : Lex.lineStart.events (writeEntry e ++ s) = Lex.events { Lex.lineStart with text := q, spaces := j }
      (r ++ (bytes " = " ++ (e.value.val ++ LF :: s))) := by
    rw [writeEntry, if_neg hs]
    simp only [List.append_assoc, List.singleton_append]
    rw [hk, List.append_assoc, Lex.events_append, hevents, List.nil_append, hafter]
  rw [hline]
  cases r with
  | nil =>
    rw [List.nil_append, events_equals]
    exact hmiss.head _
  | cons c r =>
    rcases hr c rfl with ⟨-, hm⟩ | ⟨-, hc⟩
    · have hlf : LF ∉ c :: (r ++ (bytes " = " ++ e.value.val)) := by
        have h1 := he.key.line
        rw [hk] at h1
        have h2 : LF ∉ e.value.val := fun h => (he.value.letters _ h).1 rfl
        have h3 : LF ∉ bytes " = " := by decide
        simp only [List.mem_append, List.mem_cons, not_or] at h1 ⊢
        exact ⟨h1.2.1, h1.2.2, h3, h2⟩
      have hz : Clear none (bytes " = " ++ e.value.val) := clear_append.2 ⟨by decide, e.value.clear⟩
      have := misses_comment (l := { Lex.lineStart with text := q, spaces := j }) rfl (fun e => by cases e) rfl hk hm
        hlf hz (by simp [bytes]) s
      simpa only [List.cons_append, List.append_assoc] using this
    · obtain ⟨hnext, hevent⟩ := next_valueStart (q := q) (j := j) hc
      rw [List.cons_append, Lex.events, hnext, hevent]
      exact hmiss.head _

end Entry

/-! ### Comments -/

/-- The reader behind the line of the comment `k`. -/
def Lex.commentEnd (k : List UInt8) : Lex := { state := .Comment, text := k }

section Comments

variable {e e' : IniEntry} {k : CString}

lemma comment_line_events (he : StoredEntry e.key e.value) (hs : e.key.val.head? = some SEMICOLON) (s : List UInt8) :
    Lex.lineStart.events (writeEntry e ++ s) = (Lex.commentEnd e.key.val).events s := by
  obtain ⟨hafter, hevents⟩ := after_comment (l := .lineStart) rfl (by decide) (Or.inl hs) he.key.line
  rw [writeEntry, if_pos hs, Lex.events_append, hevents, hafter]
  rfl

/-- A newline completes the comment. -/
lemma commentEnd_newline (k : CString) (s : List UInt8) :
    (Lex.commentEnd k.val).events (LF :: s) = .entry k (.ofBlock []) :: Lex.lineStart.events s := by
  have hline : (Lex.commentEnd k.val).events (LF :: s) =
      .entry (.ofBlock k.val) (.ofBlock []) :: Lex.lineStart.events s := rfl
  rw [hline, CString.ofBlock_self]

lemma misses_longer {l : Lex} {u : List UInt8} (ht : l.text = k.val ++ u) (hu : u ≠ []) (h0 : Clear none u) :
    l.Misses k := by
  refine misses_of_clear ?_ ?_
  · rw [ht]
    exact clear_append.2 ⟨k.clear, h0⟩
  · intro hpre
    have hlen := hpre.length_le
    have := List.length_pos_iff.2 hu
    rw [ht, List.length_append] at hlen
    omega

/-- A character that goes behind the comment. -/
lemma commentEnd_put (k : CString) (i : ℕ) {b : UInt8} (h0 : b ≠ NUL) :
    (Lex.put { Lex.commentEnd k.val with spaces := i } b).Misses k := by
  refine misses_longer (u := List.replicate i SP ++ [b]) (List.append_assoc _ _ _) (by simp) ?_
  refine clear_append.2 ⟨fun c hc => ?_, by simpa using h0⟩
  rw [List.eq_of_mem_replicate hc]
  decide

/-- The first character of a key from a reader, behind a comment line. -/
lemma commentEnd_char (k : CString) {b : UInt8} {r : List UInt8} (hst : StoredKey (b :: r)) (h0 : b ≠ NUL) :
    (Lex.commentEnd k.val).event b = none ∧ ((Lex.commentEnd k.val).next b).Misses k := by
  have hsp : b ≠ SP := fun e => hst.leading (by rw [e]; rfl)
  have hlf : b ≠ LF := fun e => hst.line (by simp [e])
  by_cases hmark : b = SEMICOLON ∨ b = HASH
  · have hrb : b ≠ RBRACKET := by rcases hmark with rfl | rfl <;> decide
    refine ⟨event_eq_none rfl hlf hrb, ?_⟩
    rw [next_mark rfl (fun e => by cases e) hmark]
    exact misses_longer (u := [b]) rfl (by simp) (by simpa using h0)
  · obtain ⟨hcr, hlb, hrb⟩ := hst.lead [b] ⟨r, rfl⟩ (by simpa [Unmarked] using hmark) b (by simp)
    refine ⟨event_eq_none rfl hlf hrb, ?_⟩
    rw [next_put rfl hsp hmark hcr hlf hlb hrb fun h => by cases h.2]
    exact commentEnd_put k 0 h0

/-- **The next entry goes to the comment.** -/
lemma commentEnd_entry (k : CString) (he : StoredEntry e.key e.value) (s : List UInt8) :
    ∀ ev ∈ ((Lex.commentEnd k.val).events (writeEntry e ++ s)).head?, ¬ ev.Names k := by
  cases hkey : e.key.val with
  | nil =>
    -- the line starts with a space, which is put off, and the `=`
    obtain ⟨t, ht⟩ : ∃ t, writeEntry e ++ s = SP :: EQUALS :: t := by
      rw [writeEntry, if_neg (by simp [hkey]), hkey]
      exact ⟨_, rfl⟩
    obtain ⟨i, hi⟩ := exists_next_space (l := .commentEnd k.val) rfl
    rw [ht, Lex.events, hi, Lex.events]
    exact (commentEnd_put k i (show EQUALS ≠ NUL by decide)).head t
  | cons b r =>
    obtain ⟨t, ht⟩ : ∃ t, writeEntry e ++ s = b :: t := by
      unfold writeEntry
      split_ifs
      · rw [hkey]
        exact ⟨_, rfl⟩
      · rw [hkey]
        exact ⟨_, rfl⟩
    have h0 : b ≠ NUL := by
      rintro rfl
      exact e.key.noNul (by simp [hkey])
    obtain ⟨hevent, hmiss⟩ := commentEnd_char k (hkey ▸ he.key) h0
    rw [ht, Lex.events, hevent]
    exact hmiss.head t

end Comments

end Wrensong.Ini
