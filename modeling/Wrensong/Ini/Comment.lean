import Wrensong.Ini.Lexer

/-!
# Comment lines

Behind a comment line the reader stays in the state `Comment` and keeps the line: the branch that reads the comment ends
in the case that ignores a character, not in the one of the newline. So the comment line goes on, up to the first newline
or `]` that stands in no comment (`swallowed`). There the reader is in the state it would have been in without the
comment line, and the two readings are the same from then on (`Behind.resync`).

`settings` is what a configuration says, comments left out. A comment line leaves it alone when what it swallows
completes nothing but comments (`sameSettings_of_quiet`).
-/

namespace Wrensong.Ini

open Wrensong.Lib Wrensong.Lib.Bytes

/-! ### Settings -/

/-- The string starts with `;` or `#`. -/
def Marked (s : List UInt8) : Prop := s.head? = some SEMICOLON ∨ s.head? = some HASH

instance : DecidablePred Marked := fun s =>
  inferInstanceAs (Decidable (s.head? = some SEMICOLON ∨ s.head? = some HASH))

/-- A section without its comments. -/
def stripComments (g : Group) : Group := (g.1, g.2.filter fun e => ¬ Marked e.1.val)

/-- An empty-named section with no entries. -/
def Idle (g : Group) : Prop := g.1.val = [] ∧ g.2 = []

instance : DecidablePred Idle := fun g => inferInstanceAs (Decidable (g.1.val = [] ∧ g.2 = []))

/-- What the sections say: comments are discarded, and empty-named sections that hold nothing else. -/
def settings (gs : List Group) : List Group := (gs.map stripComments).filter fun g => ¬ Idle g

/-- The event is an entry for a comment. -/
def Event.IsComment : Event → Prop
  | .entry key _ => Marked key.val
  | _ => False

instance : DecidablePred Event.IsComment := fun e => by cases e <;> unfold Event.IsComment <;> infer_instance

/-- Reading a text with a comment line `C` behind `A`, and reading it without, give the same settings and errors. -/
def SameSettings (A C B : List UInt8) (error : Bool) : Prop :=
  ∃ o o' t t', iniTableRead iniTableCreate ⟨A ++ C ++ LF :: B, error⟩ = .ok o ∧
    iniTableRead iniTableCreate ⟨A ++ B, error⟩ = .ok o' ∧ o.sink.table = some t ∧ o'.sink.table = some t' ∧
    settings t.contents = settings t'.contents ∧ o.errors = o'.errors

/-! ### Comments among the events -/

section Strip

variable {gs gs' : List Group} {e : Event}

lemma map_strip_addEntry {e : CString × CString} (he : ¬ Marked e.1.val) (gs : List Group) :
    (addEntry e gs).map stripComments = addEntry e (gs.map stripComments) := by
  induction gs with
  | nil => simp [addEntry, stripComments, he]
  | cons g gs ih =>
    cases gs with
    | nil => simp [addEntry, stripComments, he]
    | cons g' gs => simpa [addEntry] using ih

lemma map_strip_addComment {e : CString × CString} (he : Marked e.1.val) {gs : List Group} (hne : gs ≠ []) :
    (addEntry e gs).map stripComments = gs.map stripComments := by
  obtain ⟨gs, g, rfl⟩ := (List.eq_nil_or_concat' gs).resolve_left hne
  simp [addEntry_concat, stripComments, he]

/-- The sections with and without the comments: there may be an empty-named section in front, for a comment. -/
def Ahead (gs gs' : List Group) : Prop :=
  gs.map stripComments = gs'.map stripComments ∨
    gs.map stripComments = (.ofBlock [], []) :: gs'.map stripComments

lemma Ahead.settings_eq (h : Ahead gs gs') : settings gs = settings gs' := by
  unfold settings
  rcases h with h | h
  · rw [h]
  · have hidle : Idle (.ofBlock [], []) := ⟨rfl, rfl⟩
    rw [h, List.filter_cons_of_neg (by simpa using hidle)]

/-- A comment in the first of the two readings. -/
lemma Ahead.comment (h : Ahead gs gs') (he : e.IsComment) : Ahead (addEvent gs e) gs' := by
  cases e with
  | header name => cases he
  | error message => cases he
  | entry key value =>
    have hm : Marked (key, value).1.val := he
    rcases eq_or_ne gs [] with rfl | hne
    · rcases h with h | h
      · right
        simp [addEvent, addEntry, stripComments, hm, ← h]
      · simp at h
    · unfold Ahead
      rw [addEvent, map_strip_addComment hm hne]
      exact h

/-- Any other event in both readings. -/
lemma Ahead.both (h : Ahead gs gs') (he : ¬ e.IsComment) : Ahead (addEvent gs e) (addEvent gs' e) := by
  cases e with
  | header name =>
    rcases h with h | h
    · left
      simp [addEvent, h]
    · right
      simp [addEvent, h]
  | error message => exact h
  | entry key value =>
    have hm : ¬ Marked (key, value).1.val := he
    unfold Ahead
    rw [addEvent, addEvent, map_strip_addEntry hm, map_strip_addEntry hm]
    rcases h with h | h
    · left
      rw [h]
    · rw [h]
      -- an entry in front of all headers goes to the section of the comment
      cases gs'.map stripComments with
      | nil => exact Or.inl rfl
      | cons g gs => exact Or.inr rfl

/-- **Comments do not count for the settings.** -/
lemma settings_groups (es : List Event) : settings (groups es) = settings (groups (es.filter fun e => ¬ e.IsComment)) := by
  suffices h : ∀ gs gs', Ahead gs gs' →
      Ahead (es.foldl addEvent gs) ((es.filter fun e => ¬ e.IsComment).foldl addEvent gs') from
    (h [] [] (Or.inl rfl)).settings_eq
  induction es with
  | nil => exact fun gs gs' h => h
  | cons e es ih =>
    intro gs gs' h
    by_cases he : e.IsComment
    · rw [List.filter_cons_of_neg (by simpa using he)]
      exact ih _ _ (h.comment he)
    · rw [List.filter_cons_of_pos (by simpa using he)]
      exact ih _ _ (h.both he)

lemma messages_comments {es : List Event} (h : ∀ e ∈ es, e.IsComment) : messages es = [] := by
  refine List.filterMap_eq_nil_iff.2 ?_
  intro e he
  cases e with
  | header name => rfl
  | entry key value => rfl
  | error message => exact absurd (h _ he) id

end Strip

/-! ### What a comment line swallows -/

/-- The text up to the first newline or `]` that stands in no comment, that character included. The flag says whether the
text starts in a comment. -/
def swallowed : Bool → List UInt8 → List UInt8
  | _, [] => []
  | true, c :: s => c :: swallowed (c ≠ LF) s
  | false, c :: s =>
    if c = LF ∨ c = RBRACKET then [c] else c :: swallowed (c = SEMICOLON ∨ c = HASH) s

/-- All that the text completes from the state `l` are entries for comments. -/
def Quiet (l : Lex) (s : List UInt8) : Prop := ∀ e ∈ l.events s, e.IsComment

instance (l : Lex) : DecidablePred (Quiet l) := fun s => inferInstanceAs (Decidable (∀ e ∈ l.events s, e.IsComment))

/-! ### The reader behind a comment line -/

lemma Marked.append {s : List UInt8} (h : Marked s) (t : List UInt8) : Marked (s ++ t) := by
  rcases h with h | h
  · left
    rw [List.head?_append, h]
    rfl
  · right
    rw [List.head?_append, h]
    rfl

/-- A string is marked when the line it starts is. -/
lemma marked_cstr {s : List UInt8} : Marked (cstr s) ↔ Marked s := by
  cases s with
  | nil => rfl
  | cons b s =>
    by_cases hb : b = NUL
    · subst hb
      have hnil : cstr (NUL :: s) = [] := cstr_append_nul (l := []) (by simp) s
      rw [hnil]
      simp [Marked, show ¬ NUL = SEMICOLON by decide, show ¬ NUL = HASH by decide]
    · simp [Marked, cstr, token, hb]

section Line

variable {l m : Lex} {c : UInt8}

/-- A character that does not end the line is appended, put off or ignored. -/
lemma text_next (h : l.inComment = true ∨ (c ≠ LF ∧ c ≠ RBRACKET)) : ∃ u, (l.next c).text = l.text ++ u := by
  rcases hl : l.inComment with _ | _
  · obtain ⟨hlf, hrb⟩ := h.resolve_left (by simp [hl])
    have ht := turn hl c
    generalize l.next c = m at ht ⊢
    generalize l.event c = e at ht
    cases ht with
    | lead hs => exact ⟨[], by simp⟩
    | space hs => exact ⟨[], by simp⟩
    | mark hc hv => exact ⟨_, rfl⟩
    | markValue hc hv => exact ⟨_, rfl⟩
    | carriage => exact ⟨[], by simp⟩
    | lineEnd => exact absurd rfl hlf
    | openBracket => exact ⟨[], by simp⟩
    | headerEnd => exact absurd rfl hrb
    | equals hc hk => exact ⟨_, rfl⟩
    | put => exact ⟨_, List.append_assoc _ _ _⟩
  · rw [Lex.next, if_pos hl]
    split_ifs
    · exact ⟨[], by simp⟩
    · exact ⟨_, rfl⟩

/-- The states `Comment` and `Section` are left by a mark and by `[` only, before the end of the line. -/
lemma state_next (hl : l.inComment = false) (hst : l.state = .Comment ∨ l.state = .Section) (hc : c ≠ LF)
    (hc' : c ≠ RBRACKET) :
    ((l.next c).state = if c = SEMICOLON ∨ c = HASH then .Comment else if c = LBRACKET then .Section else l.state) ∧
      (l.next c).inComment = decide (c = SEMICOLON ∨ c = HASH) := by
  have ht := turn hl c
  generalize l.next c = m at ht ⊢
  generalize l.event c = e at ht
  cases ht with
  | lead hs => exact ⟨rfl, hl⟩
  | space hs => exact ⟨rfl, hl⟩
  | mark hm hv =>
    rw [if_pos hm, decide_eq_true hm]
    exact ⟨rfl, rfl⟩
  | markValue hm hv => exact absurd hv (by rcases hst with h | h <;> rw [h] <;> decide)
  | carriage => exact ⟨rfl, hl⟩
  | lineEnd => exact absurd rfl hc
  | openBracket => exact ⟨rfl, hl⟩
  | headerEnd => exact absurd rfl hc'
  | equals he hk => exact absurd hk (by rcases hst with h | h <;> rw [h] <;> decide)
  | put hsp hm hcr hlf hlb hrb heq =>
    rw [if_neg hm, if_neg hlb, decide_eq_false hm]
    exact ⟨rfl, hl⟩

/-- A comment is opened by a mark only, and `[` leads to the state `Section`. -/
lemma inComment_next (hl : l.inComment = false) (h : (l.next c).inComment = true) : c = SEMICOLON ∨ c = HASH := by
  have ht := turn hl c
  generalize l.next c = m at ht h
  generalize l.event c = e at ht
  cases ht with
  | mark hm hv => exact hm
  | markValue hm hv => exact hm
  | lineEnd => cases h
  | headerEnd => cases h
  | _ => exact absurd (hl.symm.trans h) (by decide)

end Line

/-- The reader in the state `m` is on a line that goes on where the reader in the state `l` may have begun a new one: at
the end of the line of `m`, both are at the start of a line. -/
structure Trails (l m : Lex) : Prop where
  state : m.state = .Comment ∨ m.state = .Section
  bracket : m.state = .Section → l.state = .Section
  inner : m.inComment = true → m.state = .Comment
  inComment : l.inComment = true → m.inComment = true

section Trails

variable {l m : Lex} {c : UInt8}

lemma Trails.inComment_false (h : Trails l m) (hm : m.inComment = false) : l.inComment = false := by
  by_contra hne
  rw [h.inComment (by simpa using hne)] at hm
  cases hm

/-- Inside a comment the state stays, and only a newline ends it. -/
lemma next_inner (hm : m.inComment = true) (c : UInt8) :
    (m.next c).state = m.state ∧ (m.next c).inComment = decide (c ≠ LF) := by
  rw [Lex.next, if_pos hm]
  by_cases hlf : c = LF <;> simp [hlf, hm]

/-- A character inside a comment of the longer line. -/
lemma Trails.stepIn (h : Trails l m) (hm : m.inComment = true) (c : UInt8) : Trails (l.next c) (m.next c) := by
  obtain ⟨hstate, hopen⟩ := next_inner hm c
  have hst : (m.next c).state = .Comment := hstate.trans (h.inner hm)
  refine ⟨Or.inl hst, ?_, fun _ => hst, ?_⟩
  · intro e
    rw [hst] at e
    cases e
  · intro hl'
    rw [hopen, decide_eq_true_eq]
    rintro rfl
    rcases hl : l.inComment with _ | _
    · exact absurd (inComment_next hl hl') (by decide)
    · rw [(next_inner hl LF).2] at hl'
      simp at hl'

/-- A character of the longer line that stands in no comment and does not end it. -/
lemma Trails.stepOut (h : Trails l m) (hm : m.inComment = false) (hlf : c ≠ LF) (hrb : c ≠ RBRACKET) :
    Trails (l.next c) (m.next c) := by
  have hl := h.inComment_false hm
  obtain ⟨hst, hopen⟩ := state_next hm h.state hlf hrb
  refine ⟨?_, ?_, ?_, ?_⟩
  · rw [hst]
    split_ifs
    · exact Or.inl rfl
    · exact Or.inr rfl
    · exact h.state
  · rw [hst]
    intro e
    split_ifs at e with h1 h2
    · subst h2
      rw [Lex.next, if_neg (by simp [hl])]
      rfl
    · have hls := h.bracket e
      rw [(state_next hl (Or.inr hls) hlf hrb).1, if_neg h1, if_neg h2, hls]
  · intro e
    rw [hopen, decide_eq_true_eq] at e
    rw [hst, if_pos e]
  · intro e
    rw [hopen, decide_eq_true_eq]
    exact inComment_next hl e

end Trails

/-- The reader without the comment line is in the state `l` where the reader behind the comment line is in `m`. In the
last case the line had been a comment before: the two readers are in step, and their lines begin alike. -/
structure Behind (l m : Lex) : Prop where
  state : m.state = .Comment ∨ m.state = .Section
  bracket : m.state = .Section → l.state = .Section
  inner : m.inComment = true → m.state = .Comment
  inComment : l.inComment = true → m.inComment = true
  key : Marked m.text ∨
    (m.text.head? = l.text.head? ∧ l.text ≠ [] ∧ (l.state = .Comment ∨ l.state = .Section) ∧ l.inComment = m.inComment)

lemma head?_append_both {a b : List UInt8} (h : a.head? = b.head?) (hb : b ≠ []) (u v : List UInt8) :
    (a ++ u).head? = (b ++ v).head? := by
  obtain ⟨x, b, rfl⟩ := List.exists_cons_of_ne_nil hb
  obtain ⟨a, rfl⟩ := List.head?_eq_some_iff.1 (h.trans rfl)
  rfl

section Resync

variable {l m : Lex} {c : UInt8}

lemma Behind.trails (h : Behind l m) : Trails l m := ⟨h.state, h.bracket, h.inner, h.inComment⟩

lemma Behind.inComment_false (h : Behind l m) (hm : m.inComment = false) : l.inComment = false :=
  h.trails.inComment_false hm

/-- A character inside a comment of the swallowing line. -/
lemma Behind.stepIn (h : Behind l m) (hm : m.inComment = true) (c : UInt8) : Behind (l.next c) (m.next c) := by
  have ht := h.trails.stepIn hm c
  obtain ⟨u, hu⟩ := text_next (c := c) (Or.inl hm)
  refine ⟨ht.state, ht.bracket, ht.inner, ht.inComment, ?_⟩
  rcases h.key with hk | ⟨hhead, hne, hls, hsame⟩
  · exact Or.inl (hu ▸ hk.append u)
  · have hl : l.inComment = true := hsame.trans hm
    obtain ⟨v, hv⟩ := text_next (c := c) (Or.inl hl)
    obtain ⟨hst, hopen⟩ := next_inner hl c
    refine Or.inr ⟨?_, by simp [hv, hne], ?_, ?_⟩
    · rw [hu, hv]
      exact head?_append_both hhead hne u v
    · rw [hst]
      exact hls
    · rw [hopen, (next_inner hm c).2]

/-- A character of the swallowing line that stands in no comment and does not end it. -/
lemma Behind.stepOut (h : Behind l m) (hm : m.inComment = false) (hlf : c ≠ LF) (hrb : c ≠ RBRACKET) :
    Behind (l.next c) (m.next c) := by
  have hl := h.inComment_false hm
  have ht := h.trails.stepOut hm hlf hrb
  obtain ⟨u, hu⟩ := text_next (l := m) (Or.inr ⟨hlf, hrb⟩)
  obtain ⟨v, hv⟩ := text_next (l := l) (Or.inr ⟨hlf, hrb⟩)
  refine ⟨ht.state, ht.bracket, ht.inner, ht.inComment, ?_⟩
  rcases h.key with hk | ⟨hhead, hne, hls, hsame⟩
  · exact Or.inl (hu ▸ hk.append u)
  · obtain ⟨hst', hopen'⟩ := state_next hl hls hlf hrb
    refine Or.inr ⟨?_, by simp [hv, hne], ?_, hopen'.trans (state_next hm h.state hlf hrb).2.symm⟩
    · rw [hu, hv]
      exact head?_append_both hhead hne u v
    · rw [hst']
      split_ifs
      · exact Or.inl rfl
      · exact Or.inr rfl
      · exact hls

/-- The newline that ends the swallowing line completes a comment. -/
lemma Behind.lineEvent (h : Behind l m) (hq : ∀ e ∈ l.lineEvent, e.IsComment) : ∃ e, m.lineEvent = some e ∧ e.IsComment := by
  have hsec : ¬ l.state = .Section := by
    intro hs
    exact hq (.error (missingBracket (.ofBlock l.text))) (by simp [Lex.lineEvent, hs])
  have hm : m.state = .Comment := h.state.resolve_right fun e => hsec (h.bracket e)
  refine ⟨.entry (.ofBlock m.text) (.ofBlock []), by simp [Lex.lineEvent, hm], marked_cstr.2 ?_⟩
  rcases h.key with hk | ⟨hhead, -, hls, -⟩
  · exact hk
  · have hl : l.state = .Comment := hls.resolve_right hsec
    have hmark : Marked l.text := marked_cstr.1 (hq (.entry (.ofBlock l.text) (.ofBlock [])) (by simp [Lex.lineEvent, hl]))
    unfold Marked at hmark ⊢
    rwa [hhead]

/-- **The two readers meet again.** Where all that is completed without the comment line are comments, so is all that is
completed behind it, and after the swallowing line both complete the same. -/
theorem Behind.resync (h : Behind l m) (s : List UInt8) (hq : Quiet l (swallowed m.inComment s)) :
    ∃ es es' rest, l.events s = es ++ rest ∧ m.events s = es' ++ rest ∧ (∀ e ∈ es, e.IsComment) ∧
      ∀ e ∈ es', e.IsComment := by
  induction s generalizing l m with
  | nil => exact ⟨[], [], [], rfl, rfl, by simp, by simp⟩
  | cons c s ih =>
    have hgo : ∀ {b : Bool}, Behind (l.next c) (m.next c) → (m.next c).inComment = b → m.event c = none →
        Quiet l (c :: swallowed b s) → ∃ es es' rest, l.events (c :: s) = es ++ rest ∧ m.events (c :: s) = es' ++ rest ∧
          (∀ e ∈ es, e.IsComment) ∧ ∀ e ∈ es', e.IsComment := by
      rintro b hb rfl hnone hq
      have hq1 : ∀ e ∈ (l.event c).toList, e.IsComment := fun e he => hq e (List.mem_append_left _ he)
      have hq2 : Quiet (l.next c) (swallowed (m.next c).inComment s) := fun e he => hq e (List.mem_append_right _ he)
      obtain ⟨es, es', rest, h1, h2, h3, h4⟩ := ih hb hq2
      refine ⟨(l.event c).toList ++ es, es', rest, ?_, ?_, ?_, h4⟩
      · rw [Lex.events, h1, List.append_assoc]
      · rw [Lex.events, h2, hnone]
        rfl
      · rw [List.forall_mem_append]
        exact ⟨hq1, h3⟩
    rcases hm : m.inComment with _ | _
    · rw [hm] at hq
      have hl := h.inComment_false hm
      obtain ⟨hnext, hevent⟩ := next_lineEnd hl
      obtain ⟨hnext', hevent'⟩ := next_lineEnd hm
      by_cases hlf : c = LF
      · -- both are at the start of a line
        subst hlf
        have hq1 : ∀ e ∈ l.lineEvent, e.IsComment := by
          intro e he
          refine hq e (List.mem_append_left _ ?_)
          rw [hevent]
          exact Option.mem_toList.2 he
        obtain ⟨e, he, hcom⟩ := h.lineEvent hq1
        refine ⟨l.lineEvent.toList, [e], Lex.lineStart.events s, ?_, ?_, ?_, by simpa using hcom⟩
        · rw [Lex.events, hevent, hnext]
        · rw [Lex.events, hevent', hnext', he]
          rfl
        · simpa using hq1
      by_cases hrb : c = RBRACKET
      · subst hrb
        refine absurd (hq (.header (.ofBlock l.text)) (List.mem_append_left _ ?_)) id
        rw [(next_headerEnd hl).2]
        simp
      · rw [swallowed, if_neg (not_or.2 ⟨hlf, hrb⟩)] at hq
        exact hgo (h.stepOut hm hlf hrb) (state_next hm h.state hlf hrb).2 (event_eq_none hm hlf hrb) hq
    · rw [hm] at hq
      refine hgo (h.stepIn hm c) (next_inner hm c).2 ?_ hq
      rw [Lex.event, if_pos hm]

end Resync

/-! ### Reading a comment line -/

/-- A comment is open in the state `Comment` only, and there the line is not empty. -/
structure Lex.Sound (l : Lex) : Prop where
  inner : l.inComment = true → l.state = .Comment
  text : l.state = .Comment → l.text ≠ []

lemma Lex.Sound.next {l : Lex} (h : l.Sound) (c : UInt8) : (l.next c).Sound := by
  have hstart : Lex.lineStart.Sound := ⟨fun e => (by cases e), fun e => (by cases e)⟩
  rcases hl : l.inComment with _ | _
  · have ht := turn hl c
    have hopen : l.inComment ≠ true := by simp [hl]
    generalize l.next c = m at ht ⊢
    generalize l.event c = e at ht
    cases ht with
    | lead hs => exact h
    | space hs => exact ⟨h.inner, h.text⟩
    | mark hc hv => exact ⟨fun _ => rfl, by simp⟩
    | markValue hc hv => exact ⟨h.inner, by simp⟩
    | carriage => exact h
    | lineEnd => exact hstart
    | openBracket => exact ⟨fun e => absurd e hopen, fun e => (by cases e)⟩
    | headerEnd => exact hstart
    | equals hc hk => exact ⟨fun e => absurd e hopen, fun e => (by cases e)⟩
    | put => exact ⟨h.inner, by simp [Lex.put]⟩
  · rw [Lex.next, if_pos hl]
    split_ifs
    · exact ⟨by simp, h.text⟩
    · exact ⟨h.inner, by simp⟩

lemma Lex.Sound.after {l : Lex} (h : l.Sound) (s : List UInt8) : (l.after s).Sound := by
  induction s generalizing l with
  | nil => exact h
  | cons c s ih => exact ih (h.next c)

/-- The reader at the start of a text or of a line: the line is empty, or it is a comment that goes on. -/
lemma after_newline {A : List UInt8} (hA : A = [] ∨ A.getLast? = some LF) :
    (Lex.after {} A).inComment = false ∧
      (((Lex.after {} A).text = [] ∧ (Lex.after {} A).state ≠ .Value) ∨
        ((Lex.after {} A).state = .Comment ∧ (Lex.after {} A).text ≠ [])) := by
  rcases hA with rfl | hA
  · exact ⟨rfl, Or.inl ⟨rfl, by decide⟩⟩
  obtain ⟨A, rfl⟩ := List.getLast?_eq_some_iff.1 hA
  have hsound : (Lex.after {} A).Sound := Lex.Sound.after ⟨by simp, by simp⟩ A
  rw [Lex.after_append, Lex.after_cons, Lex.after_nil]
  rcases hl : (Lex.after {} A).inComment with _ | _
  · rw [(next_lineEnd hl).1]
    exact ⟨rfl, Or.inl ⟨rfl, by decide⟩⟩
  · rw [Lex.next, if_pos hl, if_pos rfl]
    exact ⟨rfl, Or.inr ⟨hsound.inner hl, hsound.text (hsound.inner hl)⟩⟩

/-- Inside a comment all but a newline goes to the line. -/
lemma after_inComment {l : Lex} (hl : l.inComment = true) {C : List UInt8} (hC : LF ∉ C) :
    l.after C = { l with text := l.text ++ C } ∧ l.events C = [] := by
  induction C generalizing l with
  | nil => simp [Lex.events]
  | cons c C ih =>
    obtain ⟨hc, hC⟩ := not_or.1 (mt List.mem_cons.2 hC)
    have hnext : l.next c = { l with text := l.text ++ [c] } := by
      rw [Lex.next, if_pos hl, if_neg fun e => hc e.symm]
    obtain ⟨h1, h2⟩ := ih (l := l.next c) (by rw [hnext]; exact hl) hC
    constructor
    · rw [Lex.after_cons, h1, hnext]
      simp
    · rw [Lex.events, h2, Lex.event, if_pos hl]
      rfl

/-- **A comment line** completes nothing. The reader is then in the state `Comment`, with the line so far. -/
lemma after_comment {l : Lex} (hl : l.inComment = false) (hv : l.state ≠ .Value) {C : List UInt8} (hC : Marked C)
    (hlf : LF ∉ C) :
    l.after (C ++ [LF]) = { l with state := .Comment, text := l.text ++ C } ∧ l.events (C ++ [LF]) = [] := by
  obtain ⟨c, C, rfl⟩ : ∃ c C', C = c :: C' := by
    cases C with
    | nil => simp [Marked] at hC
    | cons c C => exact ⟨c, C, rfl⟩
  have hc : c = SEMICOLON ∨ c = HASH := by simpa [Marked] using hC
  have hsp : c ≠ SP := by rcases hc with rfl | rfl <;> decide
  have hrb : c ≠ RBRACKET := by rcases hc with rfl | rfl <;> decide
  obtain ⟨hcl, hlf⟩ := not_or.1 (mt List.mem_cons.2 hlf)
  have hnext : l.next c = { l with state := .Comment, text := l.text ++ [c], inComment := true } := by
    rw [Lex.next, if_neg (by simp [hl]), if_neg hsp, if_pos hc, if_neg hv]
  have hevent : l.event c = none := event_eq_none hl (fun e => hcl e.symm) hrb
  obtain ⟨h1, h2⟩ := after_inComment (l := l.next c) (by rw [hnext]) hlf
  have hline : l.after (c :: C) = { l with state := .Comment, text := l.text ++ c :: C, inComment := true } := by
    rw [Lex.after_cons, h1, hnext]
    simp
  constructor
  · rw [Lex.after_append, hline, Lex.after_cons, Lex.after_nil, Lex.next, if_pos rfl, if_pos rfl]
    simp only [hl]
  · rw [Lex.events_append, hline, Lex.events, hevent, h2, Lex.events, Lex.event, if_pos rfl]
    rfl

/-- The reader behind `A` and a comment line. -/
lemma after_commentLine {A C : List UInt8} (hA : A = [] ∨ A.getLast? = some LF) (hC : Marked C) (hlf : LF ∉ C) :
    Lex.after {} (A ++ C ++ [LF]) =
        { Lex.after {} A with state := .Comment, text := (Lex.after {} A).text ++ C } ∧
      events (A ++ C ++ [LF]) = events A := by
  obtain ⟨hl, hst⟩ := after_newline hA
  have hv : (Lex.after {} A).state ≠ .Value := by
    rcases hst with ⟨-, h⟩ | ⟨h, -⟩
    · exact h
    · rw [h]
      decide
  obtain ⟨hafter, hevents⟩ := after_comment hl hv hC hlf
  constructor
  · rw [List.append_assoc, Lex.after_append, hafter]
  · rw [events, List.append_assoc, Lex.events_append, hevents, List.append_nil]
    rfl

/-- The reader behind a comment line and the reader without it. -/
lemma behind_comment {A C : List UInt8} (hA : A = [] ∨ A.getLast? = some LF) (hC : Marked C) (hlf : LF ∉ C) :
    Behind (Lex.after {} A) (Lex.after {} (A ++ C ++ [LF])) ∧ (Lex.after {} (A ++ C ++ [LF])).inComment = false := by
  obtain ⟨hl, hst⟩ := after_newline hA
  rw [(after_commentLine hA hC hlf).1]
  refine ⟨⟨Or.inl rfl, by simp, fun _ => rfl, fun e => e, ?_⟩, hl⟩
  rcases hst with ⟨h, -⟩ | ⟨h, hne⟩
  · left
    rw [h]
    exact hC
  · refine Or.inr ⟨?_, hne, Or.inl h, rfl⟩
    have := head?_append_both (a := (Lex.after {} A).text) rfl hne C []
    rwa [List.append_nil] at this

/-- The events of a text with a comment line and without. -/
lemma events_comment {A C : List UInt8} (hA : A = [] ∨ A.getLast? = some LF) (hC : Marked C) (hlf : LF ∉ C)
    (B : List UInt8) :
    events (A ++ C ++ LF :: B) = events A ++ (Lex.after {} (A ++ C ++ [LF])).events B ∧
      events (A ++ B) = events A ++ (Lex.after {} A).events B := by
  constructor
  · rw [show A ++ C ++ LF :: B = (A ++ C ++ [LF]) ++ B by simp, events, Lex.events_append]
    exact congrArg (· ++ _) (after_commentLine hA hC hlf).2
  · exact Lex.events_append _ _ _

/-- **When a comment line does not change the configuration.** Both texts are in range and fit into the line buffer, and what
the comment line swallows completes nothing but comments when it stands behind `A`. -/
theorem sameSettings_of_quiet (A C B : List UInt8) (error : Bool) (hA : A = [] ∨ A.getLast? = some LF) (hC : Marked C)
    (hlf : LF ∉ C) (hin : InRange 0 (A ++ C ++ LF :: B)) (hin' : InRange 0 (A ++ B))
    (hfit : FitsBuffer (A ++ C ++ LF :: B)) (hfit' : FitsBuffer (A ++ B))
    (hq : Quiet (Lex.after {} A) (swallowed false B)) : SameSettings A C B error := by
  obtain ⟨hbehind, hopen⟩ := behind_comment hA hC hlf
  obtain ⟨hevents, hevents'⟩ := events_comment hA hC hlf B
  obtain ⟨es, es', rest, h1, h2, h3, h4⟩ := hbehind.resync B (by rw [hopen]; exact hq)
  rw [h2, ← List.append_assoc] at hevents
  rw [h1, ← List.append_assoc] at hevents'
  obtain ⟨o, t, ho, ht, hc, he⟩ :=
    (iniTableRead_eq iniTableCreate (show InRange 0 (IniIn.mk (A ++ C ++ LF :: B) error).data from hin)).1 hfit
  obtain ⟨o', t', ho', ht', hc', he'⟩ :=
    (iniTableRead_eq iniTableCreate (show InRange 0 (IniIn.mk (A ++ B) error).data from hin')).1 hfit'
  have hempty : iniTableCreate.contents = [] := rfl
  have hdrop : ∀ {xs : List Event}, (∀ e ∈ xs, e.IsComment) → (xs.filter fun e => ¬ e.IsComment) = [] := by
    intro xs hxs
    simpa using hxs
  refine ⟨o, o', t, t', ho, ho', ht, ht', ?_, ?_⟩
  · rw [hc, hc', hempty, List.nil_append, List.nil_append, hevents, hevents', settings_groups,
      settings_groups (_ ++ es ++ _)]
    simp only [List.filter_append, hdrop h3, hdrop h4]
  · rw [he, he', hevents, hevents']
    simp [messages_comments h3, messages_comments h4, streamErrors]

/-- A blank line behind the comment line. -/
theorem sameSettings_of_quiet_blank : SameSettings (bytes "[a]\n") (bytes ";c") (bytes "\nk=v\n") false :=
  sameSettings_of_quiet _ _ _ _ (by decide) (by decide) (by decide) (by decide +kernel) (by decide +kernel)
    (by decide +kernel) (by decide +kernel) (by decide +kernel)

/-- An entry behind the comment line: it is lost. -/
theorem not_sameSettings :
    ¬ ∀ (A C B : List UInt8) (error : Bool), A = [] ∨ A.getLast? = some LF → Marked C → LF ∉ C →
      SameSettings A C B error := by
  intro h
  obtain ⟨o, o', t, t', h1, h2, h3, h4, h5, -⟩ :=
    h (bytes "[a]\n") (bytes ";c") (bytes "k=v\n") false (by decide) (by decide) (by decide)
  have hwith : (iniTableRead iniTableCreate ⟨bytes "[a]\n" ++ bytes ";c" ++ LF :: bytes "k=v\n", false⟩).toOption.map
      (fun o => o.sink.table.map fun t => (settings t.contents).map fun g => g.2.length) = some (some [0]) := by
    decide +kernel
  have hwithout : (iniTableRead iniTableCreate ⟨bytes "[a]\n" ++ bytes "k=v\n", false⟩).toOption.map
      (fun o => o.sink.table.map fun t => (settings t.contents).map fun g => g.2.length) = some (some [1]) := by
    decide +kernel
  rw [h1] at hwith
  rw [h2] at hwithout
  simp only [Except.toOption, Option.map_some, Option.some.injEq, h3, h4, h5] at hwith hwithout
  rw [hwith] at hwithout
  exact absurd hwithout (by decide)

/-! ### The line behind a comment line is lost -/

/-- The number of entries that are no comments. -/
def entryCount (gs : List Group) : ℕ := (gs.map fun g => (stripComments g).2.length).sum

/-- The event is an entry that is no comment. -/
def Event.isSetting : Event → Bool
  | .entry key _ => ¬ Marked key.val
  | _ => false

lemma entryCount_addEntry (e : CString × CString) (gs : List Group) :
    entryCount (addEntry e gs) = entryCount gs + if Marked e.1.val then 0 else 1 := by
  induction gs with
  | nil => by_cases h : Marked e.1.val <;> simp [addEntry, entryCount, stripComments, h]
  | cons g gs ih =>
    cases gs with
    | nil => by_cases h : Marked e.1.val <;> simp [addEntry, entryCount, stripComments, h]
    | cons g' gs =>
      simp only [entryCount, List.map_cons, List.sum_cons, addEntry] at ih ⊢
      rw [ih]
      omega

lemma entryCount_groups (es : List Event) : entryCount (groups es) = es.countP Event.isSetting := by
  suffices h : ∀ gs, entryCount (es.foldl addEvent gs) = entryCount gs + es.countP Event.isSetting by
    simpa [entryCount, groups] using h []
  induction es with
  | nil => simp
  | cons e es ih =>
    intro gs
    rw [List.foldl_cons, ih, List.countP_cons]
    cases e with
    | header name => simp [addEvent, entryCount, stripComments, Event.isSetting]
    | error message => simp [addEvent, Event.isSetting]
    | entry key value =>
      rw [addEvent, entryCount_addEntry]
      by_cases h : Marked key.val
      · simp [Event.isSetting, h]
      · simp [Event.isSetting, h]
        omega

/-- The settings have as many entries. -/
lemma sum_settings (gs : List Group) : ((settings gs).map fun g => g.2.length).sum = entryCount gs := by
  induction gs with
  | nil => rfl
  | cons g gs ih =>
    unfold settings at ih ⊢
    rw [List.map_cons]
    by_cases h : Idle (stripComments g)
    · rw [List.filter_cons_of_neg (by simpa using h), ih]
      simp [entryCount, h.2]
    · rw [List.filter_cons_of_pos (by simpa using h), List.map_cons, List.sum_cons, ih]
      simp [entryCount]

/-- The reader on a line that is no comment. -/
structure Lex.Bare (l : Lex) : Prop where
  inComment : l.inComment = false
  state : l.state ≠ .Comment
  text : ¬ Marked l.text

lemma not_marked_append {s t : List UInt8} (hs : ¬ Marked s) (ht : ¬ Marked t) : ¬ Marked (s ++ t) := by
  cases s with
  | nil => exact ht
  | cons b s => exact hs

section Bare

variable {l : Lex} {c : UInt8}

/-- A character of such a line, which is in the line unless it is a space or a `\r`. -/
lemma Lex.Bare.next (h : l.Bare) (hc : c ≠ LF ∧ c ≠ SEMICOLON ∧ c ≠ HASH ∧ c ≠ LBRACKET ∧ c ≠ RBRACKET) :
    (l.next c).Bare ∧ (l.text ≠ [] ∨ (c ≠ SP ∧ c ≠ CR) → (l.next c).text ≠ []) ∧ l.event c = none := by
  obtain ⟨hlf, hsemi, hhash, hlb, hrb⟩ := hc
  obtain ⟨hic, hst, htx⟩ := h
  have ht := turn hic c
  generalize l.next c = m at ht ⊢
  generalize l.event c = e at ht ⊢
  cases ht with
  | lead hs => exact ⟨⟨hic, hst, htx⟩, fun hne => hne.resolve_right fun e => e.1 rfl, rfl⟩
  | space hs => exact ⟨⟨hic, hst, htx⟩, fun hne => hne.resolve_right fun e => e.1 rfl, rfl⟩
  | mark hm hv => exact absurd hm (not_or.2 ⟨hsemi, hhash⟩)
  | markValue hm hv => exact absurd hm (not_or.2 ⟨hsemi, hhash⟩)
  | carriage => exact ⟨⟨hic, hst, htx⟩, fun hne => hne.resolve_right fun e => e.2 rfl, rfl⟩
  | lineEnd => exact absurd rfl hlf
  | openBracket => exact absurd rfl hlb
  | headerEnd => exact absurd rfl hrb
  | equals he hk => exact ⟨⟨hic, by simp, not_marked_append htx (by decide)⟩, fun _ => by simp, rfl⟩
  | put =>
    refine ⟨⟨hic, hst, not_marked_append (not_marked_append htx ?_) ?_⟩, fun _ => by simp [Lex.put], rfl⟩
    · cases l.spaces with
      | zero => simp [Marked]
      | succ k => simp [List.replicate_succ, Marked]; decide
    · simp [Marked, hsemi, hhash]

/-- The characters of such a line. -/
def Ordinary (L : List UInt8) : Prop :=
  ∀ c ∈ L, c ≠ LF ∧ c ≠ SEMICOLON ∧ c ≠ HASH ∧ c ≠ LBRACKET ∧ c ≠ RBRACKET

lemma Lex.Bare.line (h : l.Bare) {L : List UInt8} (hL : Ordinary L) :
    (l.after L).Bare ∧ (l.text ≠ [] ∨ (∃ c ∈ L, c ≠ SP ∧ c ≠ CR) → (l.after L).text ≠ []) ∧ l.events L = [] := by
  induction L generalizing l with
  | nil => exact ⟨h, by simp, rfl⟩
  | cons c L ih =>
    obtain ⟨h1, h2, h3⟩ := h.next (hL c (List.mem_cons_self ..))
    obtain ⟨h4, h5, h6⟩ := ih h1 fun x hx => hL x (List.mem_cons_of_mem _ hx)
    refine ⟨h4, ?_, by rw [Lex.events, h3, h6]; rfl⟩
    rintro (hne | ⟨x, hx, hne⟩)
    · exact h5 (Or.inl (h2 (Or.inl hne)))
    · rcases List.mem_cons.1 hx with rfl | hx
      · exact h5 (Or.inl (h2 (Or.inr hne)))
      · exact h5 (Or.inr ⟨x, hx, hne⟩)

/-- A line with something in it completes a setting or an error. -/
lemma Lex.Bare.lineEvent (h : l.Bare) (hne : l.text ≠ []) :
    ∃ e, l.lineEvent = some e ∧ ((e.isSetting = true ∧ messages [e] = []) ∨ (messages [e]).length = 1) := by
  unfold Lex.lineEvent
  cases hs : l.state with
  | Section => exact ⟨_, rfl, Or.inr rfl⟩
  | Key => exact ⟨_, if_neg hne, Or.inr rfl⟩
  | Value => exact ⟨_, rfl, Or.inl ⟨by simp [Event.isSetting, marked_cstr, h.text], rfl⟩⟩
  | Comment => exact absurd hs h.state

/-- Such a line behind a comment line goes to the comment. -/
lemma comment_line (hic : l.inComment = false) (hst : l.state = .Comment) {L : List UInt8} (hL : Ordinary L) :
    (l.after L).inComment = false ∧ (l.after L).state = .Comment ∧ (∃ u, (l.after L).text = l.text ++ u) ∧
      l.events L = [] := by
  induction L generalizing l with
  | nil => exact ⟨hic, hst, ⟨[], by simp⟩, rfl⟩
  | cons c L ih =>
    obtain ⟨hlf, hsemi, hhash, hlb, hrb⟩ := hL c (List.mem_cons_self ..)
    have hm : ¬ (c = SEMICOLON ∨ c = HASH) := not_or.2 ⟨hsemi, hhash⟩
    obtain ⟨h1, h2⟩ := state_next hic (Or.inl hst) hlf hrb
    rw [if_neg hm, if_neg hlb] at h1
    rw [decide_eq_false hm] at h2
    obtain ⟨u, hu⟩ := text_next (l := l) (Or.inr ⟨hlf, hrb⟩)
    obtain ⟨h3, h4, ⟨v, hv⟩, h5⟩ := ih h2 (h1.trans hst) fun x hx => hL x (List.mem_cons_of_mem _ hx)
    refine ⟨h3, h4, ⟨u ++ v, by rw [Lex.after_cons, hv, hu, List.append_assoc]⟩, ?_⟩
    rw [Lex.events, h5, event_eq_none hic hlf hrb]
    rfl

end Bare

/-- **The line behind a comment line is lost.** On a line without `;`, `#`, `[` and `]` that is not blank, the comment
line does change the configuration, unless the line before it was a comment. -/
theorem not_sameSettings_of_line {A C L B : List UInt8} {error : Bool} (hA : A = [] ∨ A.getLast? = some LF)
    (hC : Marked C) (hlf : LF ∉ C) (hfresh : (Lex.after {} A).text = []) (hL : Ordinary L)
    (hne : ∃ c ∈ L, c ≠ SP ∧ c ≠ CR) (hin : InRange 0 (A ++ C ++ LF :: (L ++ LF :: B)))
    (hin' : InRange 0 (A ++ (L ++ LF :: B))) : ¬ SameSettings A C (L ++ LF :: B) error := by
  have hsound : (Lex.after {} A).Sound := Lex.Sound.after ⟨by simp, by simp⟩ A
  have hl := (after_newline hA).1
  have hbare : (Lex.after {} A).Bare := ⟨hl, fun e => hsound.text e hfresh, by rw [hfresh]; decide⟩
  set l := Lex.after {} A with hldef
  -- without the comment line
  obtain ⟨hbare', htext, hev⟩ := hbare.line hL
  obtain ⟨e, he, hseen⟩ := hbare'.lineEvent (htext (Or.inr hne))
  have hline : l.events (L ++ LF :: B) = e :: Lex.lineStart.events B := by
    obtain ⟨hnext, hevent⟩ := next_lineEnd hbare'.inComment
    rw [Lex.events_append, hev, Lex.events, hevent, hnext, he]
    rfl
  -- with it
  obtain ⟨hafter, -⟩ := after_commentLine hA hC hlf
  set m := Lex.after {} (A ++ C ++ [LF]) with hmdef
  have hm : m.inComment = false ∧ m.state = .Comment ∧ m.text = C := by
    rw [hafter]
    exact ⟨hl, rfl, by simp [← hldef, hfresh]⟩
  obtain ⟨hic', hst', ⟨u, hu⟩, hev'⟩ := comment_line hm.1 hm.2.1 hL
  have hline' : ∃ e', e'.IsComment ∧ m.events (L ++ LF :: B) = e' :: Lex.lineStart.events B := by
    obtain ⟨hnext, hevent⟩ := next_lineEnd hic'
    refine ⟨.entry (.ofBlock (m.after L).text) (.ofBlock []), ?_, ?_⟩
    · refine marked_cstr.2 ?_
      rw [hu, hm.2.2]
      exact hC.append u
    · rw [Lex.events_append, hev', Lex.events, hevent, hnext]
      simp [Lex.lineEvent, hst']
  obtain ⟨e', hcom, hline'⟩ := hline'
  obtain ⟨hevents, hevents'⟩ := events_comment hA hC hlf (L ++ LF :: B)
  rw [← hmdef, hline'] at hevents
  rw [← hldef, hline] at hevents'
  rintro ⟨o, o', t, t', ho, ho', ht, ht', hset, herr⟩
  obtain ⟨hc, hm1⟩ := contents_of_read hin ho ht
  obtain ⟨hc', hm2⟩ := contents_of_read hin' ho' ht'
  have hmess : messages (events (A ++ C ++ LF :: (L ++ LF :: B))) = messages (events (A ++ (L ++ LF :: B))) :=
    List.append_cancel_right (hm1.symm.trans (herr.trans hm2))
  have hcount : (events (A ++ C ++ LF :: (L ++ LF :: B))).countP Event.isSetting =
      (events (A ++ (L ++ LF :: B))).countP Event.isSetting := by
    rw [← entryCount_groups, ← entryCount_groups, ← sum_settings, ← sum_settings, ← hc, ← hc', hset]
  rw [hevents, hevents'] at hmess hcount
  rw [messages_append, messages_append, ← List.singleton_append, messages_append [e'], ← List.singleton_append (x := e),
    messages_append [e]] at hmess
  rcases hseen with ⟨hs, -⟩ | hlen
  · have hs' : e'.isSetting = false := by
      cases e' with
      | entry key value =>
        have hmk : Marked key.val := hcom
        simp [Event.isSetting, hmk]
      | _ => rfl
    rw [List.countP_append, List.countP_append, List.countP_cons, List.countP_cons, hs, hs'] at hcount
    simp at hcount
  · have hnil : messages [e'] = [] := messages_comments (by simpa using hcom)
    have := congrArg List.length hmess
    rw [hnil] at this
    simp only [List.length_append, List.length_nil] at this
    omega

end Wrensong.Ini
