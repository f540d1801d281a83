import Wrensong.Ini.Ample
import Wrensong.Ini.Comment

/-!
# The pieces of a line

What stands on a line up to the first character that means something there: `Inside st c` says that `c` means nothing on a
line that the reader is in the state `st` on. Over such characters the reader only makes the line longer (`passed`), and
the character behind them decides: the newline, a bracket, a mark, or the `=`.

`lineBegin` says where the reader is behind a newline: at a new line, or in a comment that has lost its newline.
-/

namespace Wrensong.Ini

open Wrensong.Lib Wrensong.Lib.Bytes

/-- `;` or `#`. -/
def IsMark (c : UInt8) : Prop := c = SEMICOLON ∨ c = HASH

/-- `=` or `:`. -/
def IsEquals (c : UInt8) : Prop := c = EQUALS ∨ c = COLON

/-- `[` or `]`. -/
def IsBracket (c : UInt8) : Prop := c = LBRACKET ∨ c = RBRACKET

instance : DecidablePred IsMark := fun c => inferInstanceAs (Decidable (c = SEMICOLON ∨ c = HASH))

instance : DecidablePred IsEquals := fun c => inferInstanceAs (Decidable (c = EQUALS ∨ c = COLON))

instance : DecidablePred IsBracket := fun c => inferInstanceAs (Decidable (c = LBRACKET ∨ c = RBRACKET))

/-- The character means nothing on a line that the reader is in the state `st` on. -/
structure Inside (st : LineState) (c : UInt8) : Prop where
  line : c ≠ LF
  close : c ≠ RBRACKET
  bracket : st ≠ .Section → c ≠ LBRACKET
  mark : st ≠ .Value → ¬ IsMark c
  equals : st = .Key → ¬ IsEquals c

instance (st : LineState) : DecidablePred (Inside st) := fun c =>
  decidable_of_iff (c ≠ LF ∧ c ≠ RBRACKET ∧ (st ≠ .Section → c ≠ LBRACKET) ∧ (st ≠ .Value → ¬ IsMark c) ∧
      (st = .Key → ¬ IsEquals c))
    ⟨fun ⟨h1, h2, h3, h4, h5⟩ => ⟨h1, h2, h3, h4, h5⟩, fun ⟨h1, h2, h3, h4, h5⟩ => ⟨h1, h2, h3, h4, h5⟩⟩

/-- The text makes the line longer, and nothing else. -/
structure Passed (l : Lex) (s : List UInt8) : Prop where
  state : (l.after s).state = l.state
  inComment : (l.after s).inComment = false
  value : (l.after s).value = l.value
  text : ∃ u, (l.after s).text = l.text ++ u
  events : l.events s = []

section Passed

variable {l : Lex} {s r : List UInt8} {c : UInt8}

lemma Inside.event (h : Inside l.state c) : l.event c = none := by
  rw [Lex.event, if_neg h.line, if_neg h.close, ite_self]

lemma passed_char (hl : l.inComment = false) (h : Inside l.state c) :
    (l.next c).state = l.state ∧ (l.next c).inComment = false ∧ (l.next c).value = l.value ∧
      ∃ u, (l.next c).text = l.text ++ u := by
  have ht := turn hl c
  generalize l.next c = m at ht ⊢
  generalize l.event c = e at ht
  cases ht with
  | lead hs => exact ⟨rfl, hl, rfl, [], by simp⟩
  | space hs => exact ⟨rfl, hl, rfl, [], by simp⟩
  | mark hc hv => exact absurd hc (h.mark hv)
  | markValue hc hv => exact ⟨rfl, hl, rfl, _, rfl⟩
  | carriage => exact ⟨rfl, hl, rfl, [], by simp⟩
  | lineEnd => exact absurd rfl h.line
  | openBracket =>
    have hst : l.state = .Section := by
      by_contra hst
      exact h.bracket hst rfl
    exact ⟨hst.symm, hl, rfl, [], by simp⟩
  | headerEnd => exact absurd rfl h.close
  | equals hc hk => exact absurd hc (h.equals hk)
  | put => exact ⟨rfl, hl, rfl, _, List.append_assoc _ _ _⟩

/-- **Over characters that mean nothing the line gets longer.** -/
lemma passed (hl : l.inComment = false) (h : ∀ c ∈ s, Inside l.state c) : Passed l s := by
  induction s generalizing l with
  | nil => exact ⟨rfl, hl, rfl, ⟨[], by simp⟩, rfl⟩
  | cons c s ih =>
    have hc := h c (by simp)
    obtain ⟨hst, hin, hval, u, hu⟩ := passed_char hl hc
    have hrest := ih hin fun b hb => hst ▸ h b (by simp [hb])
    obtain ⟨w, hw⟩ := hrest.text
    refine ⟨hrest.state.trans hst, hrest.inComment, hrest.value.trans hval, ⟨u ++ w, ?_⟩, ?_⟩
    · rw [Lex.after_cons, hw, hu, List.append_assoc]
    · rw [Lex.events, hc.event, hrest.events]
      rfl

/-- The newline. -/
lemma Passed.lineEnd (h : Passed l s) : l.events (s ++ [LF]) = (l.after s).lineEvent.toList := by
  rw [Lex.events_append, h.events, Lex.events, (next_lineEnd h.inComment).2, Lex.events, List.append_nil, List.nil_append]

/-- A `]`. -/
lemma Passed.close (h : Passed l s) (r : List UInt8) :
    l.events (s ++ RBRACKET :: r) = .header (.ofBlock (l.after s).text) :: Lex.lineStart.events r := by
  obtain ⟨hnext, hevent⟩ := next_headerEnd h.inComment
  rw [Lex.events_append, h.events, Lex.events, hevent, hnext]
  rfl

/-- A `[`. -/
lemma Passed.bracket (h : Passed l s) (r : List UInt8) :
    l.events (s ++ LBRACKET :: r) = Lex.events { l.after s with state := .Section } r := by
  rw [Lex.events_append, h.events, Lex.events, event_eq_none h.inComment (by decide) (by decide),
    next_openBracket h.inComment]
  rfl

/-- A mark outside a value: the rest of the line is a comment. -/
lemma Passed.comment (h : Passed l s) (hv : l.state ≠ .Value) (hc : IsMark c) (hr : LF ∉ r) :
    l.events (s ++ c :: r ++ [LF]) = [] := by
  have hlf : LF ∉ c :: r := by
    have hne : LF ≠ c := by rcases hc with rfl | rfl <;> decide
    simpa [hne] using hr
  have hmark : Marked (c :: r) := by simpa [Marked, IsMark] using hc
  have hcom := after_comment h.inComment (h.state ▸ hv) hmark hlf
  rw [List.append_assoc, Lex.events_append, h.events, hcom.2]
  rfl

/-- The `=` behind a key. -/
lemma Passed.equals (h : Passed l s) (hk : l.state = .Key) (hc : IsEquals c) (r : List UInt8) :
    l.events (s ++ c :: r) = Lex.events { l.after s with
      state := .Value, text := (l.after s).text ++ [NUL], spaces := 0, value := (l.after s).text.length + 1 } r := by
  have hlf : c ≠ LF := by rcases hc with rfl | rfl <;> decide
  have hrb : c ≠ RBRACKET := by rcases hc with rfl | rfl <;> decide
  rw [Lex.events_append, h.events, Lex.events, event_eq_none h.inComment hlf hrb,
    next_equals h.inComment (h.state.trans hk) hc]
  rfl

end Passed

/-! ### The first character that means something -/

/-- The text is split at the first character with the property. -/
lemma exists_first {P : UInt8 → Prop} [DecidablePred P] (s : List UInt8) :
    (∀ c ∈ s, ¬ P c) ∨ ∃ q c r, s = q ++ c :: r ∧ (∀ b ∈ q, ¬ P b) ∧ P c := by
  rcases hr : s.dropWhile fun c => ¬ P c with _ | ⟨c, r⟩
  · left
    have hall := List.dropWhile_eq_nil_iff.1 hr
    exact fun c hc => by simpa using hall c hc
  · right
    refine ⟨s.takeWhile fun c => ¬ P c, c, r, ?_, fun b hb => by simpa using List.mem_takeWhile_imp hb, ?_⟩
    · rw [← hr, List.takeWhile_append_dropWhile]
    · have hnot := List.head?_dropWhile_not (fun c => decide ¬ P c) s
      rw [hr] at hnot
      simpa using hnot

/-- **A line in a comment that goes on** ends the comment, opens it again at a mark, or comes to a bracket. -/
lemma comment_rest {l : Lex} {L : List UInt8} (hst : l.state = .Comment) (hin : l.inComment = false) (hlf : LF ∉ L) :
    (∃ u, l.events (L ++ [LF]) = [.entry (.ofBlock (l.text ++ u)) (.ofBlock [])] ∧
        ∀ c ∈ L, ¬ IsMark c ∧ ¬ IsBracket c) ∨
      (l.events (L ++ [LF]) = [] ∧ ∃ c ∈ L, IsMark c) ∨
      ∃ q c r, L = q ++ c :: r ∧ IsBracket c ∧ Passed l q := by
  have hinside : ∀ c ∈ L, ¬ IsMark c ∧ ¬ IsBracket c → Inside l.state c := by
    intro c hc ⟨hm, hb⟩
    refine ⟨fun e => hlf (e ▸ hc), fun e => hb (Or.inr e), fun _ e => hb (Or.inl e), fun _ => hm, fun e => ?_⟩
    rw [hst] at e
    cases e
  rcases exists_first (P := fun c => ¬ (¬ IsMark c ∧ ¬ IsBracket c)) L with hall | ⟨q, c, r, hsplit, hq, hc⟩
  · left
    have hclean : ∀ c ∈ L, ¬ IsMark c ∧ ¬ IsBracket c := fun c hc => not_not.1 (hall c hc)
    have hpassed := passed hin fun c hc => hinside c hc (hclean c hc)
    obtain ⟨u, hu⟩ := hpassed.text
    refine ⟨u, ?_, hclean⟩
    rw [hpassed.lineEnd, Lex.lineEvent, hpassed.state, hst, hu]
    rfl
  right
  have hpassed := passed hin fun b hb => hinside b (by rw [hsplit]; simp [hb]) (not_not.1 (hq b hb))
  by_cases hm : IsMark c
  · left
    have hr : LF ∉ r := fun e => hlf (by rw [hsplit]; simp [e])
    refine ⟨?_, c, by rw [hsplit]; simp, hm⟩
    rw [hsplit]
    exact hpassed.comment (by rw [hst]; decide) hm hr
  · right
    have hb : IsBracket c := by
      by_contra hb
      exact hc ⟨hm, hb⟩
    exact ⟨q, c, r, hsplit, hb, hpassed⟩

/-! ### Where a line begins -/

/-- A comment holds its mark. -/
lemma marked_next {l : Lex} (h : l.state = .Comment → ∃ c ∈ l.text, IsMark c) (hl : l.inComment = true → l.state = .Comment)
    (c : UInt8) : (l.next c).state = .Comment → ∃ b ∈ (l.next c).text, IsMark b := by
  have hmore : ∀ u, l.state = .Comment → ∃ b ∈ l.text ++ u, IsMark b := by
    intro u e
    obtain ⟨b, hb, hm⟩ := h e
    exact ⟨b, List.mem_append_left u hb, hm⟩
  rcases hc : l.inComment with _ | _
  · have ht := turn hc c
    generalize l.next c = m at ht ⊢
    generalize l.event c = e at ht
    cases ht with
    | lead hs => exact h
    | space hs => exact h
    | mark hm hv => exact fun _ => ⟨c, by simp, hm⟩
    | markValue hm hv => exact hmore _
    | carriage => exact h
    | lineEnd => exact fun e => by cases e
    | openBracket => exact fun e => by cases e
    | headerEnd => exact fun e => by cases e
    | equals he hk => exact fun e => by cases e
    | put =>
      rw [Lex.put, List.append_assoc]
      exact hmore _
  · intro _
    obtain ⟨u, hu⟩ := text_next (Or.inl hc) (l := l) (c := c)
    rw [hu]
    exact hmore u (hl hc)

lemma marked_after (s : List UInt8) : (Lex.after {} s).state = .Comment → ∃ c ∈ (Lex.after {} s).text, IsMark c := by
  induction s using List.reverseRecOn with
  | nil => exact fun e => by cases e
  | append_singleton s c ih =>
    have hsound : (Lex.after {} s).Sound := Lex.Sound.after ⟨by simp, by simp⟩ s
    rw [Lex.after_append, Lex.after_cons, Lex.after_nil]
    exact marked_next ih hsound.inner c

/-- **The reader behind a newline** is at a new line, or in a comment that goes on. -/
lemma lineBegin {p : List UInt8} (hp : p.getLast? = some LF) :
    Lex.after {} p = .lineStart ∨ ((Lex.after {} p).state = .Comment ∧ (Lex.after {} p).inComment = false ∧
      ∃ c ∈ (Lex.after {} p).text, IsMark c) := by
  obtain ⟨s, rfl⟩ := List.getLast?_eq_some_iff.1 hp
  have hsound : (Lex.after {} s).Sound := Lex.Sound.after ⟨by simp, by simp⟩ s
  rcases hl : (Lex.after {} s).inComment with _ | _
  · left
    rw [Lex.after_append, Lex.after_cons, Lex.after_nil, (next_lineEnd hl).1]
  · right
    have hmark := marked_after (s ++ [LF])
    rw [Lex.after_append, Lex.after_cons, Lex.after_nil, Lex.next, if_pos hl, if_pos rfl] at hmark ⊢
    exact ⟨hsound.inner hl, rfl, hmark (hsound.inner hl)⟩

end Wrensong.Ini
