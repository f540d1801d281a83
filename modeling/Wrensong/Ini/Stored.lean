import Wrensong.Ini.Lexer

/-!
# What a reader leaves in a table

The strings of a table are parts of the lines of a text, and the reader does not let every string through. `StoredKey` and
`StoredValue` say what the names and keys and what the values can be. `Lex.Stored` is the same for the line so far: it
holds at the start and each character keeps it (`Lex.Stored.next`), so that it holds for whatever a text completes
(`Lex.Stored.events`) and for every section of a table that was read (`storedGroup_of_read`).
-/

namespace Wrensong.Ini

open Wrensong.Lib Wrensong.Lib.Bytes

/-! ### Strings -/

/-- There is no `;` and no `#` in the string. -/
def Unmarked (s : List UInt8) : Prop := ∀ c ∈ s, ¬ (c = SEMICOLON ∨ c = HASH)

/-- The names and keys from a reader: before the first `;` or `#` there is no `\r` and no bracket. -/
structure StoredKey (s : List UInt8) : Prop where
  leading : s.head? ≠ some SP
  line : LF ∉ s
  lead : ∀ q, q <+: s → Unmarked q → ∀ c ∈ q, c ≠ CR ∧ c ≠ LBRACKET ∧ c ≠ RBRACKET

/-- The values from a reader. -/
structure StoredValue (s : List UInt8) : Prop where
  leading : s.head? ≠ some SP
  letters : ∀ c ∈ s, c ≠ LF ∧ c ≠ CR ∧ c ≠ LBRACKET ∧ c ≠ RBRACKET
  comment : ¬ [SP, SEMICOLON] <:+: s ∧ ¬ [SP, HASH] <:+: s

/-- The entries from a reader: a comment has no value. -/
structure StoredEntry (k v : CString) : Prop where
  key : StoredKey k.val
  value : StoredValue v.val
  comment : k.val.head? = some SEMICOLON → v.val = []

section Stored

variable {s u v : List UInt8} {c : UInt8}

lemma unmarked_append : Unmarked (s ++ u) ↔ Unmarked s ∧ Unmarked u := by
  simp only [Unmarked, List.mem_append]
  constructor
  · intro h
    exact ⟨fun b hb => h b (Or.inl hb), fun b hb => h b (Or.inr hb)⟩
  · rintro ⟨h1, h2⟩ b (hb | hb)
    · exact h1 b hb
    · exact h2 b hb

lemma storedKey_nil : StoredKey [] := ⟨by simp, by simp, by simp⟩

lemma storedValue_nil : StoredValue [] := ⟨by simp, by simp, by simp⟩

lemma StoredKey.of_prefix (h : StoredKey s) (hu : u <+: s) : StoredKey u :=
  ⟨head?_ne_of_isPrefix h.leading hu, fun hm => h.line (hu.subset hm), fun q hq => h.lead q (hq.trans hu)⟩

lemma StoredValue.of_prefix (h : StoredValue s) (hu : u <+: s) : StoredValue u :=
  ⟨head?_ne_of_isPrefix h.leading hu, fun c hc => h.letters c (hu.subset hc),
    fun hi => h.comment.1 (hi.trans hu.isInfix), fun hi => h.comment.2 (hi.trans hu.isInfix)⟩

lemma head?_append_of_nil {b : UInt8} (h : s.head? ≠ some b) (hu : s = [] → u.head? ≠ some b) :
    (s ++ u).head? ≠ some b := by
  cases s with
  | nil => exact hu rfl
  | cons a s => exact h

lemma StoredKey.append (h : StoredKey s) (hlead : s = [] → u.head? ≠ some SP) (hlf : LF ∉ u)
    (hu : Unmarked s → ∀ c ∈ u, c ≠ CR ∧ c ≠ LBRACKET ∧ c ≠ RBRACKET) : StoredKey (s ++ u) where
  leading := head?_append_of_nil h.leading hlead
  line := by
    rw [List.mem_append]
    exact not_or.2 ⟨h.line, hlf⟩
  lead := by
    intro q hq hm c hc
    rcases List.prefix_or_prefix_of_prefix hq (List.prefix_append s u) with hqs | ⟨u', rfl⟩
    · exact h.lead q hqs hm c hc
    · -- the string has no mark, and the rest of the prefix is a part of `u`
      have hs := (unmarked_append.1 hm).1
      rcases List.mem_append.1 hc with hc | hc
      · exact h.lead s List.prefix_rfl hs c hc
      · exact hu hs c (((List.prefix_append_right_inj s).1 hq).subset hc)

lemma pair_infix_concat {a b : UInt8} (h : [a, b] <:+: s ++ [c]) : [a, b] <:+: s ∨ (s.getLast? = some a ∧ c = b) := by
  rcases List.infix_concat_iff.1 h with ⟨t, ht⟩ | h
  · right
    have he : (t ++ [a]) ++ [b] = s ++ [c] := by simpa using ht
    obtain ⟨rfl, hb⟩ := List.append_inj' he rfl
    exact ⟨by simp, (List.cons.inj hb).1.symm⟩
  · exact Or.inl h

lemma StoredValue.concat (h : StoredValue v) (hc : c ≠ LF ∧ c ≠ CR ∧ c ≠ LBRACKET ∧ c ≠ RBRACKET)
    (hsp : v = [] → c ≠ SP) (hm : c = SEMICOLON ∨ c = HASH → v.getLast? ≠ some SP) : StoredValue (v ++ [c]) where
  leading := head?_append_of_nil h.leading fun hv => by simpa using hsp hv
  letters := by
    intro b hb
    rcases List.mem_append.1 hb with hb | hb
    · exact h.letters b hb
    · rw [List.mem_singleton.1 hb]
      exact hc
  comment := by
    constructor
    · intro hi
      rcases pair_infix_concat hi with hi | ⟨hl, rfl⟩
      · exact h.comment.1 hi
      · exact hm (Or.inl rfl) hl
    · intro hi
      rcases pair_infix_concat hi with hi | ⟨hl, rfl⟩
      · exact h.comment.2 hi
      · exact hm (Or.inr rfl) hl

lemma StoredValue.append_spaces (h : StoredValue v) (k : ℕ) (hk : v = [] → k = 0) :
    StoredValue (v ++ List.replicate k SP) := by
  induction k with
  | zero => simpa using h
  | succ k ih =>
    have hne : v ≠ [] := fun e => absurd (hk e) (by omega)
    have hprev := ih fun e => absurd e hne
    rw [List.replicate_succ', ← List.append_assoc]
    refine hprev.concat (by decide) (fun e => absurd (List.append_eq_nil_iff.1 e).1 hne) ?_
    intro hm
    exact absurd hm (by decide)

end Stored

/-! ### The line of the reader -/

/-- What the line of the reader has in it. In a value, the line is a key, a `NUL` and the value so far. -/
structure Lex.Stored (l : Lex) : Prop where
  text : StoredKey l.text
  spaces : l.text = [] → l.spaces = 0
  inner : l.inComment = true → l.state = .Comment ∧ ¬ Unmarked l.text
  key : l.state = .Key → Unmarked l.text
  value : l.state = .Value → ∃ k v, Unmarked k ∧ l.text = k ++ NUL :: v ∧ l.value = k.length + 1 ∧ StoredValue v ∧
    v.getLast? ≠ some SP ∧ (v = [] → l.spaces = 0)

section LexStored

variable {l : Lex} {c : UInt8}

lemma stored_lineStart : Lex.lineStart.Stored :=
  ⟨storedKey_nil, fun _ => rfl, fun e => (by cases e), fun _ => by simp [Unmarked, Lex.lineStart], fun e => (by cases e)⟩

lemma stored_start : Lex.Stored {} :=
  ⟨storedKey_nil, fun _ => rfl, fun e => (by cases e), fun e => (by cases e), fun e => (by cases e)⟩

/-- A character of a comment. -/
lemma Lex.Stored.stepIn (h : l.Stored) (hl : l.inComment = true) (c : UInt8) : (l.next c).Stored := by
  obtain ⟨hst, hmark⟩ := h.inner hl
  rw [Lex.next, if_pos hl]
  by_cases hlf : c = LF
  · rw [if_pos hlf]
    exact ⟨h.text, h.spaces, fun e => (by cases e), h.key, h.value⟩
  · rw [if_neg hlf]
    have hne : l.text ≠ [] := by
      intro e
      refine hmark ?_
      rw [e]
      simp [Unmarked]
    refine ⟨h.text.append (fun e => absurd e hne) (by simpa using fun e => hlf e.symm) (fun e => absurd e hmark),
      by simp, fun _ => ⟨hst, fun e => hmark (unmarked_append.1 e).1⟩, ?_, ?_⟩
    · intro e
      rw [hst] at e
      cases e
    · intro e
      rw [hst] at e
      cases e

lemma Lex.Stored.text_mark (h : l.Stored) (hc : c = SEMICOLON ∨ c = HASH) : StoredKey (l.text ++ [c]) := by
  refine h.text.append (fun _ => ?_) ?_ ?_
  · rcases hc with rfl | rfl <;> decide
  · rcases hc with rfl | rfl <;> decide
  · intro _ b hb
    rw [List.mem_singleton.1 hb]
    rcases hc with rfl | rfl <;> decide

/-- A mark opens a comment. -/
lemma Lex.Stored.mark (h : l.Stored) (hc : c = SEMICOLON ∨ c = HASH) :
    Lex.Stored { l with state := .Comment, text := l.text ++ [c], inComment := true } :=
  ⟨h.text_mark hc, by simp, fun _ => ⟨rfl, fun e => e c (by simp) hc⟩, fun e => (by cases e), fun e => (by cases e)⟩

/-- A mark in a value. -/
lemma Lex.Stored.markValue (h : l.Stored) (hl : l.inComment = false) (hc : c = SEMICOLON ∨ c = HASH)
    (hv : l.state = .Value) : Lex.Stored { l with text := l.text ++ [c] } := by
  refine ⟨h.text_mark hc, by simp, fun e => absurd (hl.symm.trans e) (by decide),
    fun e => absurd (hv.symm.trans e) (by decide), fun _ => ?_⟩
  obtain ⟨k, v, hk, htx, hval, hst, hlast, hsp⟩ := h.value hv
  refine ⟨k, v ++ [c], hk, by simp [htx], hval, ?_, ?_, by simp⟩
  · refine hst.concat ?_ (fun _ => ?_) fun _ => hlast
    · rcases hc with rfl | rfl <;> decide
    · rcases hc with rfl | rfl <;> decide
  · rw [List.getLast?_concat]
    rcases hc with rfl | rfl <;> decide

/-- The `=` of an entry. -/
lemma Lex.Stored.equals (h : l.Stored) (hl : l.inComment = false) (hk : l.state = .Key) : Lex.Stored
    { l with state := .Value, text := l.text ++ [NUL], spaces := 0, value := l.text.length + 1 } := by
  have htext : StoredKey (l.text ++ [NUL]) := by
    refine h.text.append (fun _ => by decide) (by decide) fun _ b hb => ?_
    rw [List.mem_singleton.1 hb]
    decide
  refine ⟨htext, by simp, fun e => absurd (hl.symm.trans e) (by decide), fun e => (by cases e), fun _ => ?_⟩
  exact ⟨l.text, [], h.key hk, rfl, rfl, storedValue_nil, by simp, fun _ => rfl⟩

/-- Any other character, behind the spaces that were put off. -/
lemma Lex.Stored.put (h : l.Stored) (hl : l.inComment = false) (hsp : c ≠ SP)
    (hm : ¬ (c = SEMICOLON ∨ c = HASH)) (hc : c ≠ LF ∧ c ≠ CR ∧ c ≠ LBRACKET ∧ c ≠ RBRACKET) : (l.put c).Stored := by
  obtain ⟨hlf, hcr, hlb, hrb⟩ := hc
  have hmem : ∀ b ∈ List.replicate l.spaces SP ++ [c], b = SP ∨ b = c := by
    intro b hb
    rcases List.mem_append.1 hb with hb | hb
    · exact Or.inl (List.eq_of_mem_replicate hb)
    · exact Or.inr (List.mem_singleton.1 hb)
  refine ⟨?_, by simp [Lex.put], ?_, ?_, ?_⟩
  · rw [Lex.put, List.append_assoc]
    refine h.text.append ?_ ?_ ?_
    · intro e
      rw [h.spaces e]
      simpa using hsp
    · intro e
      rcases hmem _ e with e | e
      · exact absurd e (by decide)
      · exact hlf e.symm
    · intro _ b hb
      rcases hmem b hb with rfl | rfl
      · decide
      · exact ⟨hcr, hlb, hrb⟩
  · intro e
    exact absurd (hl.symm.trans e) (by decide)
  · intro hk
    rw [Lex.put, List.append_assoc]
    refine unmarked_append.2 ⟨h.key hk, fun b hb => ?_⟩
    rcases hmem b hb with rfl | rfl
    · decide
    · exact hm
  · intro hv
    obtain ⟨k, v, hk, htx, hval, hst, hlast, hspaces⟩ := h.value hv
    refine ⟨k, v ++ List.replicate l.spaces SP ++ [c], hk, by simp [Lex.put, htx], hval, ?_, ?_, by simp⟩
    · exact (hst.append_spaces _ hspaces).concat ⟨hlf, hcr, hlb, hrb⟩ (fun _ => hsp) fun e => absurd e hm
    · rw [List.getLast?_concat]
      simpa using hsp

/-- **One character.** -/
lemma Lex.Stored.next (h : l.Stored) (c : UInt8) : (l.next c).Stored := by
  rcases hl : l.inComment with _ | _
  · have ht := turn hl c
    generalize l.next c = m at ht ⊢
    generalize l.event c = e at ht
    cases ht with
    | lead hs => exact h
    | space hs =>
      refine ⟨h.text, fun e => absurd ?_ hs, h.inner, h.key, fun hv => ?_⟩
      · rw [Lex.AtStart, e]
        simp
      · obtain ⟨k, v, hk, htx, hval, hst, hlast, hspaces⟩ := h.value hv
        refine ⟨k, v, hk, htx, hval, hst, hlast, fun e => absurd ?_ hs⟩
        rw [Lex.AtStart, Lex.start, if_pos hv, htx, hval, e]
        simp
    | mark hc hv => exact h.mark hc
    | markValue hc hv => exact h.markValue hl hc hv
    | carriage => exact h
    | lineEnd => exact stored_lineStart
    | openBracket =>
      refine ⟨h.text, h.spaces, fun e => ?_, fun e => (by cases e), fun e => (by cases e)⟩
      exact absurd (hl.symm.trans e) (by decide)
    | headerEnd => exact stored_lineStart
    | equals hc hk => exact h.equals hl hk
    | put hsp hm hcr hlf hlb hrb heq => exact h.put hl hsp hm ⟨hlf, hcr, hlb, hrb⟩
  · exact h.stepIn hl c

/-- What the reader completes. -/
def Event.Stored : Event → Prop
  | .header name => StoredKey name.val
  | .entry key value => StoredEntry key value
  | .error _ => True

lemma cstr_isPrefix (s : List UInt8) : cstr s <+: s := List.takeWhile_prefix _

/-- A string with a `NUL` in the block ends there. -/
lemma cstr_append_nul_cons (k v : List UInt8) : cstr (k ++ NUL :: v) = cstr k := by
  have hmem : NUL ∈ k ++ [NUL] := by simp
  have h := cstr_append_of_mem hmem v
  rw [List.append_assoc, List.singleton_append] at h
  exact h.trans (token_concat_nul none k)

lemma Lex.Stored.lineEvent (h : l.Stored) : ∀ e ∈ l.lineEvent, e.Stored := by
  have hkey : StoredKey (cstr l.text) := h.text.of_prefix (cstr_isPrefix _)
  intro e he
  unfold Lex.lineEvent at he
  cases hst : l.state with
  | Value =>
    obtain ⟨k, v, hk, htx, hval, hv, -⟩ := h.value hst
    simp only [hst, Option.mem_some_iff] at he
    subst he
    have hdrop : l.text.drop l.value = v := by
      rw [htx, hval, ← List.drop_drop, List.drop_left]
      rfl
    refine ⟨hkey, ?_, fun hs => ?_⟩
    · rw [hdrop]
      exact hv.of_prefix (cstr_isPrefix v)
    · rw [CString.ofBlock_val, htx, cstr_append_nul_cons] at hs
      have hmem : SEMICOLON ∈ k := (cstr_isPrefix k).subset (List.mem_of_head? hs)
      exact absurd (Or.inl rfl) (hk _ hmem)
  | Comment =>
    simp only [hst, Option.mem_some_iff] at he
    subst he
    exact ⟨hkey, storedValue_nil, fun _ => rfl⟩
  | Section =>
    simp only [hst, Option.mem_some_iff] at he
    subst he
    trivial
  | Key =>
    simp only [hst] at he
    split_ifs at he
    · cases he
    · rw [Option.mem_some_iff] at he
      subst he
      trivial

lemma Lex.Stored.event (h : l.Stored) (c : UInt8) : ∀ e ∈ l.event c, e.Stored := by
  intro e he
  unfold Lex.event at he
  split_ifs at he
  · cases he
  · exact h.lineEvent e he
  · rw [Option.mem_some_iff] at he
    subst he
    exact h.text.of_prefix (cstr_isPrefix _)
  · cases he

/-- **What a text completes.** -/
lemma Lex.Stored.events (h : l.Stored) (s : List UInt8) : ∀ e ∈ l.events s, e.Stored := by
  induction s generalizing l with
  | nil => exact fun e he => absurd he List.not_mem_nil
  | cons c s ih =>
    intro e he
    rcases List.mem_append.1 he with he | he
    · exact h.event c e (Option.mem_toList.1 he)
    · exact ih (h.next c) e he

end LexStored

/-- A section from a reader. -/
def StoredGroup (g : Group) : Prop := StoredKey g.1.val ∧ ∀ e ∈ g.2, StoredEntry e.1 e.2

lemma storedGroup_addEvent {gs : List Group} {e : Event} (h : ∀ g ∈ gs, StoredGroup g) (he : e.Stored) :
    ∀ g ∈ addEvent gs e, StoredGroup g := by
  cases e with
  | header name =>
    refine List.forall_mem_append.2 ⟨h, ?_⟩
    rw [List.forall_mem_singleton]
    exact ⟨he, by simp⟩
  | error message => exact h
  | entry key value =>
    rcases List.eq_nil_or_concat' gs with rfl | ⟨gs, g, rfl⟩
    · rw [addEvent, addEntry, List.forall_mem_singleton]
      refine ⟨storedKey_nil, ?_⟩
      rw [List.forall_mem_singleton]
      exact he
    · obtain ⟨hgs, hg⟩ := List.forall_mem_append.1 h
      rw [List.forall_mem_singleton] at hg
      rw [addEvent, addEntry_concat]
      refine List.forall_mem_append.2 ⟨hgs, ?_⟩
      rw [List.forall_mem_singleton]
      refine ⟨hg.1, List.forall_mem_append.2 ⟨hg.2, ?_⟩⟩
      rw [List.forall_mem_singleton]
      exact he

lemma storedGroup_groups {es : List Event} (h : ∀ e ∈ es, e.Stored) : ∀ g ∈ groups es, StoredGroup g := by
  suffices hgo : ∀ gs : List Group, (∀ g ∈ gs, StoredGroup g) → ∀ g ∈ es.foldl addEvent gs, StoredGroup g from
    hgo [] (by simp)
  induction es with
  | nil => exact fun gs hgs => hgs
  | cons e es ih =>
    intro gs hgs
    exact ih (fun e' he' => h e' (List.mem_cons_of_mem _ he')) _
      (storedGroup_addEvent hgs (h e (List.mem_cons_self ..)))

/-- **The sections of a table that was read.** -/
lemma storedGroup_of_read {input : IniIn} {o : Output} {t : IniTable} (hin : InRange 0 input.data)
    (h : iniTableRead iniTableCreate input = .ok o) (ht : o.sink.table = some t) : ∀ g ∈ t.contents, StoredGroup g := by
  rw [(contents_of_read hin h ht).1]
  exact storedGroup_groups (stored_start.events input.data)

end Wrensong.Ini
