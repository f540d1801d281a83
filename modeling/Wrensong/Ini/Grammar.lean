import Mathlib.Data.List.DropRight
import Wrensong.Ini.Callback
import Wrensong.Ini.Ends
import Wrensong.Ini.Verbatim

/-!
# The lines that the reader accepts

A line of the grammar is blank, a comment, a header, or a setting `key = value`. `Obeys` says that the reader goes by it on
a line behind a text: an error for every other line, a section for a header and for nothing else, and one entry for a
setting with brackets in its value.

The reader does not: `[` and `]` mean the same in every state, and `;` and `#` open a comment everywhere but in a value.
`Lex.Orderly` says on which lines this makes no difference, and `obeys_iff` that these are the lines on which it obeys, among
those that stay inside the line buffer. The first character of a line that means something (`Inside .Key`) tells the kinds
of lines apart, on both sides.
-/

namespace Wrensong.Ini

open Wrensong.Lib Wrensong.Lib.Bytes

/-! ### The grammar -/

/-- A comment, behind blanks. -/
def CommentLine (L : List UInt8) : Prop := ∃ a c r, Blank a ∧ IsMark c ∧ L = a ++ c :: r

/-- A header: a name in brackets, with only blanks around it. -/
def HeaderLine (L name : List UInt8) : Prop :=
  ∃ a b, Blank a ∧ Blank b ∧ (∀ c ∈ name, ¬ IsBracket c) ∧ L = a ++ LBRACKET :: (name ++ RBRACKET :: b)

/-- A key, `=` or `:`, and a value. The key has no brackets, no marks and no `=` or `:`. -/
def SettingLine (L key value : List UInt8) : Prop :=
  ∃ c, (∀ b ∈ key, Inside .Key b) ∧ IsEquals c ∧ L = key ++ c :: value

/-- The lines of the grammar. -/
def InGrammar (L : List UInt8) : Prop :=
  Blank L ∨ CommentLine L ∨ (∃ name, HeaderLine L name) ∨ ∃ key value, SettingLine L key value

/-- The string of a part of a line: without carriage returns, and without the spaces around it. -/
def wordOf (s : List UInt8) : CString :=
  .ofBlock (((s.filter (· ≠ CR)).dropWhile (· = SP)).rdropWhile (· = SP))

/-- The reader of the program, whose line buffer has 128 bytes at first, goes by the grammar on the line `L` behind the text
`p`. -/
structure Obeys (t : IniTable) (p L : List UInt8) : Prop where
  errors : (∃ gs gs' es, ReadsTo 128 t p gs es ∧ ReadsTo 128 t (p ++ (L ++ [LF])) gs' es) ↔ InGrammar L
  sections : (∀ name, ¬ HeaderLine L name) → ∃ gs gs' es es', ReadsTo 128 t p gs es ∧
    ReadsTo 128 t (p ++ (L ++ [LF])) gs' es' ∧ gs'.length = gs.length
  header : ∀ name, HeaderLine L name → ∃ gs es es', ReadsTo 128 t p gs es ∧
    ReadsTo 128 t (p ++ (L ++ [LF])) (gs ++ [(wordOf name, [])]) es'
  setting : ∀ key value, SettingLine L key value → (∃ c ∈ value, IsBracket c) →
    AddsEntry 128 t p (L ++ [LF]) (wordOf key) (wordOf value)

/-- The brackets and marks of the line stand only where the grammar has them, or it has an error that the reader reports:
a line with nothing on it that means something, or a `[` with neither `]` nor mark behind it. In a comment that has lost its
newline no plain line is reported, and no header starts a section of its name unless a `NUL` has cut the comment to it. -/
def Lex.Orderly (l : Lex) (L : List UInt8) : Prop :=
  Blank L ∨ CommentLine L ∨
    (∃ name, HeaderLine L name ∧ (∀ c ∈ name, ¬ IsMark c) ∧ (l.state = .Comment → cstr l.text = (wordOf name).val)) ∨
    (∃ key value, SettingLine L key value ∧ ∀ c ∈ value, ¬ IsBracket c) ∨
    ((∀ c ∈ L, Inside .Key c) ∧ l.state ≠ .Comment) ∨
    ∃ q r, (∀ c ∈ q, Inside .Key c) ∧ (∀ c ∈ r, c ≠ RBRACKET ∧ ¬ IsMark c) ∧ L = q ++ LBRACKET :: r

/-! ### The kinds of lines -/

section Kinds

variable {L q r name key value : List UInt8} {c : UInt8}

/-- A text has one first character with a property. -/
lemma first_unique {P : UInt8 → Prop} {q' r' : List UInt8} {c' : UInt8} (h : q ++ c :: r = q' ++ c' :: r')
    (hq : ∀ b ∈ q, P b) (hc : ¬ P c) (hq' : ∀ b ∈ q', P b) (hc' : ¬ P c') : q = q' ∧ c = c' ∧ r = r' := by
  induction q generalizing q' with
  | nil =>
    cases q' with
    | nil => exact ⟨rfl, List.cons.inj h⟩
    | cons b q' =>
      have hb := (List.cons.inj h).1
      exact absurd (hb ▸ hq' b (by simp)) hc
  | cons b q ih =>
    cases q' with
    | nil =>
      have hb := (List.cons.inj h).1
      exact absurd (hb ▸ hq b (by simp)) hc'
    | cons b' q' =>
      obtain ⟨rfl, hrest⟩ := List.cons.inj h
      obtain ⟨rfl, h1⟩ := ih hrest (fun x hx => hq x (by simp [hx])) fun x hx => hq' x (by simp [hx])
      exact ⟨rfl, h1⟩

lemma Blank.inside {b : List UInt8} (h : Blank b) (st : LineState) : ∀ c ∈ b, Inside st c := by
  intro c hc
  rcases h c hc with rfl | rfl <;> cases st <;> decide

lemma not_inside_bracket : ¬ Inside .Key LBRACKET := by decide

lemma IsMark.not_inside (h : IsMark c) : ¬ Inside .Key c := fun hi => hi.mark (by decide) h

lemma IsEquals.not_inside (h : IsEquals c) : ¬ Inside .Key c := fun hi => hi.equals rfl h

/-- What a line can have first that means something. -/
lemma not_inside_cases (h : ¬ Inside .Key c) (hlf : c ≠ LF) : IsEquals c ∨ IsMark c ∨ c = LBRACKET ∨ c = RBRACKET := by
  by_contra hcon
  obtain ⟨he, hm, hlb, hrb⟩ := by simpa only [not_or] using hcon
  exact h ⟨hlf, hrb, fun _ => hlb, fun _ => hm, fun _ => he⟩

/-- A line on which nothing means something. -/
lemma plain_kinds (h : ∀ c ∈ L, Inside .Key c) :
    ¬ CommentLine L ∧ (∀ name, ¬ HeaderLine L name) ∧ (∀ key value, ¬ SettingLine L key value) ∧
      ∀ q r, L ≠ q ++ LBRACKET :: r := by
  refine ⟨?_, ?_, ?_, ?_⟩
  · rintro ⟨a, c, r, -, hm, rfl⟩
    exact hm.not_inside (h c (by simp))
  · rintro name ⟨a, b, -, -, -, rfl⟩
    exact not_inside_bracket (h LBRACKET (by simp))
  · rintro key value ⟨c, -, he, rfl⟩
    exact he.not_inside (h c (by simp))
  · rintro q r rfl
    exact not_inside_bracket (h LBRACKET (by simp))

section Split

variable (hq : ∀ b ∈ q, Inside .Key b) (hc : ¬ Inside .Key c)

include hc in
lemma not_blank_split : ¬ Blank (q ++ c :: r) := fun h => hc (h.inside .Key c (by simp))

include hq hc

lemma commentLine_split : CommentLine (q ++ c :: r) ↔ Blank q ∧ IsMark c := by
  constructor
  · rintro ⟨a, c', r', ha, hm, h⟩
    obtain ⟨rfl, rfl, -⟩ := first_unique h hq hc (ha.inside .Key) hm.not_inside
    exact ⟨ha, hm⟩
  · exact fun ⟨ha, hm⟩ => ⟨q, c, r, ha, hm, rfl⟩

lemma headerLine_split : HeaderLine (q ++ c :: r) name ↔
    Blank q ∧ c = LBRACKET ∧ ∃ b, Blank b ∧ (∀ x ∈ name, ¬ IsBracket x) ∧ r = name ++ RBRACKET :: b := by
  constructor
  · rintro ⟨a, b, ha, hb, hname, h⟩
    obtain ⟨rfl, rfl, rfl⟩ := first_unique h hq hc (ha.inside .Key) not_inside_bracket
    exact ⟨ha, rfl, b, hb, hname, rfl⟩
  · rintro ⟨ha, rfl, b, hb, hname, rfl⟩
    exact ⟨q, b, ha, hb, hname, rfl⟩

lemma settingLine_split : SettingLine (q ++ c :: r) key value ↔ IsEquals c ∧ key = q ∧ value = r := by
  constructor
  · rintro ⟨c', hkey, he, h⟩
    obtain ⟨rfl, rfl, rfl⟩ := first_unique h hq hc hkey he.not_inside
    exact ⟨he, rfl, rfl⟩
  · rintro ⟨he, rfl, rfl⟩
    exact ⟨c, hq, he, rfl⟩

/-- The lines of the grammar, by their first character that means something. -/
lemma inGrammar_split : InGrammar (q ++ c :: r) ↔
    IsEquals c ∨ (Blank q ∧ (IsMark c ∨ ∃ name, HeaderLine (q ++ c :: r) name)) := by
  unfold InGrammar
  simp only [not_blank_split (q := q) (r := r) hc, commentLine_split hq hc, settingLine_split hq hc, false_or,
    exists_and_left, exists_eq, and_true]
  constructor
  · rintro (⟨ha, hm⟩ | ⟨name, h⟩ | he)
    · exact Or.inr ⟨ha, Or.inl hm⟩
    · exact Or.inr ⟨((headerLine_split hq hc).1 h).1, Or.inr ⟨name, h⟩⟩
    · exact Or.inl he
  · rintro (he | ⟨ha, hm | h⟩)
    · exact Or.inr (Or.inr he)
    · exact Or.inl ⟨ha, hm⟩
    · exact Or.inr (Or.inl h)

end Split

end Kinds

/-! ### The name of a header -/

section Name

variable {s name : List UInt8} {c : UInt8}

/-- The part of a name without carriage returns and leading spaces. -/
def nameTail (s : List UInt8) : List UInt8 := (s.filter (· ≠ CR)).dropWhile (· = SP)

/-- The line of a header, at any place of its name. A `NUL` at the start makes the name empty, and the spaces behind it are
not counted. -/
def HoldsName (l : Lex) (d : List UInt8) : Prop :=
  if d.head? = some NUL then l.text.head? = some NUL
  else l.text ++ List.replicate l.spaces SP = d ∧ l.text.getLast? ≠ some SP

lemma nameTail_return (s : List UInt8) : nameTail (s ++ [CR]) = nameTail s := by simp [nameTail]

lemma nameTail_space (s : List UInt8) :
    nameTail (s ++ [SP]) = if nameTail s = [] then [] else nameTail s ++ [SP] := by
  unfold nameTail
  rw [List.filter_append, List.dropWhile_append]
  by_cases h : (s.filter (· ≠ CR)).dropWhile (· = SP) = []
  · rw [if_pos h, h]
    rfl
  · rw [if_neg h, if_neg (by simpa using h)]
    rfl

lemma nameTail_letter (s : List UInt8) (hsp : c ≠ SP) (hcr : c ≠ CR) : nameTail (s ++ [c]) = nameTail s ++ [c] := by
  unfold nameTail
  rw [List.filter_append, List.dropWhile_append]
  by_cases h : (s.filter (· ≠ CR)).dropWhile (· = SP) = []
  · rw [h]
    simp [hsp, hcr]
  · rw [if_neg (by simpa using h)]
    simp [hcr]

lemma nameTail_head (s : List UInt8) : (nameTail s).head? ≠ some SP := by
  intro h
  have hnot := List.head?_dropWhile_not (fun c => decide (c = SP)) (s.filter (· ≠ CR))
  rw [nameTail] at h
  rw [h] at hnot
  simp at hnot

section Step

variable {l : Lex} (hst : l.state = .Section) (hin : l.inComment = false)

include hst hin

/-- A space of a name is dropped at its start, and put off behind it. -/
lemma HoldsName.space (h : HoldsName l (nameTail s)) : HoldsName (l.next SP) (nameTail (s ++ [SP])) := by
  have hstart : l.start = 0 := by
    rw [Lex.start, if_neg]
    rw [hst]
    decide
  rw [next_space hin, nameTail_space]
  unfold HoldsName at h ⊢
  by_cases hnul : (nameTail s).head? = some NUL
  · rw [if_pos hnul] at h
    have hne : nameTail s ≠ [] := fun e => by simp [e] at hnul
    have hat : l.AtStart := by
      rw [Lex.AtStart, hstart, List.drop_zero, List.headD_eq_head?_getD, h]
      rfl
    rw [if_pos hat, if_neg hne, if_pos (by rw [List.head?_append_of_ne_nil _ hne, hnul])]
    exact h
  rw [if_neg hnul] at h
  obtain ⟨htext, hlast⟩ := h
  by_cases hnil : l.text = []
  · -- no spaces are put off, since the tail does not start with one
    have hk : l.spaces = 0 := by
      by_contra hk
      obtain ⟨k, hk⟩ := Nat.exists_eq_succ_of_ne_zero hk
      refine nameTail_head s ?_
      rw [← htext, hnil, hk, List.replicate_succ]
      rfl
    have hd : nameTail s = [] := by rw [← htext, hnil, hk, List.replicate_zero, List.append_nil]
    have hat : l.AtStart := by simp [Lex.AtStart, hnil]
    rw [if_pos hat, if_pos hd, if_neg (by simp), hnil, hk]
    simp
  · obtain ⟨b, u, hb⟩ := List.exists_cons_of_ne_nil hnil
    have hne : nameTail s ≠ [] := by
      rw [← htext, hb]
      simp
    have hb0 : b ≠ NUL := by
      rintro rfl
      refine hnul ?_
      rw [← htext, hb]
      rfl
    have hat : ¬ l.AtStart := by
      rw [Lex.AtStart, hstart, List.drop_zero, hb]
      exact hb0
    rw [if_neg hat, if_neg hne, if_neg (by rwa [List.head?_append_of_ne_nil _ hne])]
    refine ⟨?_, hlast⟩
    rw [← htext, List.replicate_succ', List.append_assoc]

/-- Any other character of a name goes behind the spaces that were put off. -/
lemma HoldsName.letter (h : HoldsName l (nameTail s)) (hc : Inside .Section c) (hlb : c ≠ LBRACKET) (hcr : c ≠ CR)
    (hsp : c ≠ SP) : HoldsName (l.next c) (nameTail (s ++ [c])) := by
  have hput : l.next c = l.put c := by
    refine next_put hin hsp (hc.mark (by decide)) hcr hc.line hlb hc.close fun e => ?_
    rw [hst] at e
    cases e.2
  rw [hput, nameTail_letter s hsp hcr]
  unfold HoldsName at h ⊢
  by_cases hnul : (nameTail s).head? = some NUL
  · rw [if_pos hnul] at h
    have hne : nameTail s ≠ [] := fun e => by simp [e] at hnul
    have hnil : l.text ≠ [] := fun e => by simp [e] at h
    rw [if_pos (by rw [List.head?_append_of_ne_nil _ hne, hnul]), Lex.put, List.append_assoc,
      List.head?_append_of_ne_nil _ hnil]
    exact h
  · rw [if_neg hnul] at h
    obtain ⟨htext, -⟩ := h
    rw [Lex.put, htext]
    split_ifs with hhead
    · exact hhead
    · exact ⟨by simp, by simpa using hsp⟩

end Step

/-- **A name on its header line.** The induction is on the name from its end. -/
lemma holdsName (h : ∀ c ∈ s, Inside .Section c ∧ c ≠ LBRACKET) : HoldsName (Lex.after {} s) (nameTail s) := by
  induction s using List.reverseRecOn with
  | nil => exact ⟨rfl, by simp⟩
  | append_singleton s c ih =>
    have hs := ih fun b hb => h b (by simp [hb])
    have hpassed := passed (l := {}) rfl fun b hb => (h b (List.mem_append_left _ hb)).1
    obtain ⟨hc, hlb⟩ := h c (by simp)
    rw [Lex.after_append, Lex.after_cons, Lex.after_nil]
    by_cases hcr : c = CR
    · rw [hcr, next_return hpassed.inComment, nameTail_return]
      exact hs
    by_cases hsp : c = SP
    · rw [hsp]
      exact hs.space hpassed.state hpassed.inComment
    · exact hs.letter hpassed.state hpassed.inComment hc hlb hcr hsp

/-- **The section gets the name between the brackets.** -/
lemma name_of_header (h : ∀ c ∈ name, Inside .Section c ∧ c ≠ LBRACKET) :
    CString.ofBlock (Lex.after {} name).text = wordOf name := by
  have hname := holdsName h
  unfold HoldsName at hname
  ext1
  rw [wordOf, CString.ofBlock_val, CString.ofBlock_val]
  change cstr _ = cstr ((nameTail name).rdropWhile _)
  by_cases hnul : (nameTail name).head? = some NUL
  · rw [if_pos hnul] at hname
    obtain ⟨u, hu⟩ : ∃ u, (Lex.after {} name).text = NUL :: u := List.head?_eq_some_iff.1 hname
    obtain ⟨d, hd⟩ : ∃ d, nameTail name = NUL :: d := List.head?_eq_some_iff.1 hnul
    have hne : (nameTail name).rdropWhile (· = SP) ≠ [] := by
      rw [Ne, List.rdropWhile_eq_nil_iff, hd]
      exact fun e => absurd (e NUL (by simp)) (by decide)
    obtain ⟨b, w, hw⟩ := List.exists_cons_of_ne_nil hne
    have hb : b = NUL := by
      have hpre := List.rdropWhile_prefix (p := fun c => decide (c = SP)) (l := nameTail name)
      rw [hw, hd] at hpre
      exact (List.cons_prefix_cons.1 hpre).1
    rw [hu, hw, hb]
    exact (cstr_append_nul (l := []) (by simp) u).trans (cstr_append_nul (l := []) (by simp) w).symm
  · rw [if_neg hnul] at hname
    obtain ⟨htext, hlast⟩ := hname
    have htrim : ∀ k, ((Lex.after {} name).text ++ List.replicate k SP).rdropWhile (· = SP) =
        (Lex.after {} name).text := by
      intro k
      induction k with
      | zero =>
        rw [List.replicate_zero, List.append_nil, List.rdropWhile_eq_self_iff]
        intro hl e
        refine hlast ?_
        rw [List.getLast?_eq_some_getLast hl, of_decide_eq_true e]
      | succ k ih =>
        rw [List.replicate_succ', ← List.append_assoc, List.rdropWhile_concat_pos _ _ _ (by simp), ih]
    rw [← htext, htrim]

end Name

/-! ### The rest of a line behind a `[` -/

section Rest

variable {l m : Lex} {q r : List UInt8} {c : UInt8} {gs : List Group}

/-- In the state `Section` a `[` means nothing. -/
lemma inside_section (hlf : c ≠ LF) (h : c ≠ RBRACKET ∧ ¬ IsMark c) : Inside .Section c :=
  ⟨hlf, h.1, fun e => absurd rfl e, fun _ => h.2, fun e => by cases e⟩

/-- What can come of the rest: an error, a comment, or a header. -/
lemma section_rest (hst : m.state = .Section) (hin : m.inComment = false) (hlf : LF ∉ r) :
    (∃ x, m.events (r ++ [LF]) = [.error x] ∧ ∀ c ∈ r, c ≠ RBRACKET ∧ ¬ IsMark c) ∨
      (m.events (r ++ [LF]) = [] ∧ ∃ q c r', r = q ++ c :: r' ∧ (∀ b ∈ q, b ≠ RBRACKET) ∧ IsMark c) ∨
      ∃ q r', r = q ++ RBRACKET :: r' ∧ (∀ b ∈ q, b ≠ RBRACKET ∧ ¬ IsMark b) ∧
        m.events (r ++ [LF]) = .header (.ofBlock (m.after q).text) :: Lex.lineStart.events (r' ++ [LF]) := by
  rcases exists_first (P := fun c => ¬ (c ≠ RBRACKET ∧ ¬ IsMark c)) r with hall | ⟨q, c, r', rfl, hq, hc⟩
  · left
    have hclean : ∀ c ∈ r, c ≠ RBRACKET ∧ ¬ IsMark c := fun c hc => not_not.1 (hall c hc)
    have hpassed := passed hin fun c hc => hst ▸ inside_section (fun e => hlf (e ▸ hc)) (hclean c hc)
    refine ⟨missingBracket (.ofBlock (m.after r).text), ?_, hclean⟩
    rw [hpassed.lineEnd, Lex.lineEvent, hpassed.state, hst]
    rfl
  right
  have hclean : ∀ b ∈ q, b ≠ RBRACKET ∧ ¬ IsMark b := fun b hb => not_not.1 (hq b hb)
  have hlfq : ∀ b ∈ q, b ≠ LF := fun b hb e => hlf (by simp [← e, hb])
  have hpassed := passed hin fun b hb => hst ▸ inside_section (hlfq b hb) (hclean b hb)
  by_cases hrb : c = RBRACKET
  · subst hrb
    refine Or.inr ⟨q, r', rfl, hclean, ?_⟩
    rw [List.append_assoc, List.cons_append, hpassed.close]
  · have hm : IsMark c := by
      by_contra hm
      exact hc ⟨hrb, hm⟩
    refine Or.inl ⟨?_, q, c, r', rfl, fun b hb => (hclean b hb).1, hm⟩
    exact hpassed.comment (by rw [hst]; decide) hm fun e => hlf (by simp [e])

/-- The events are not those of an entry: nothing, an error, or a header first. -/
def NoEntry (es : List Event) : Prop := es = [] ∨ (∃ x, es = [.error x]) ∨ ∃ name es', es = .header name :: es'

lemma NoEntry.not_adds {es : List Event} (h : NoEntry es) (hgs : gs ≠ []) (e : CString × CString) :
    ¬ (es.foldl addEvent gs = addEntry e gs ∧ messages es = []) := by
  rintro ⟨hg, he⟩
  rcases h with rfl | ⟨x, rfl⟩ | ⟨name, es', rfl⟩
  · exact addEntry_ne e hgs hg.symm
  · cases he
  · have hlen := congrArg List.length hg
    rw [length_groups _ hgs, length_addEntry e hgs, List.countP_cons] at hlen
    simp [Event.isHeader] at hlen

lemma noEntry_section (hst : m.state = .Section) (hin : m.inComment = false) (hlf : LF ∉ r) :
    NoEntry (m.events (r ++ [LF])) := by
  rcases section_rest hst hin hlf with ⟨x, h, -⟩ | ⟨h, -⟩ | ⟨q, r', -, -, h⟩
  · exact Or.inr (Or.inl ⟨x, h⟩)
  · exact Or.inl h
  · exact Or.inr (Or.inr ⟨_, _, h⟩)

/-- A bracket behind characters that mean nothing. -/
lemma Passed.noEntry (h : Passed l q) (hc : IsBracket c) (hlf : LF ∉ r) : NoEntry (l.events (q ++ c :: r ++ [LF])) := by
  rw [List.append_assoc, List.cons_append]
  rcases hc with rfl | rfl
  · rw [h.bracket]
    exact noEntry_section rfl h.inComment hlf
  · rw [h.close]
    exact Or.inr (Or.inr ⟨_, _, rfl⟩)

end Rest

/-! ### The events of a line -/

/-- The reader is at a new line, or in a comment that goes on. -/
def Lex.AtLine (l : Lex) : Prop :=
  l = .lineStart ∨ (l.state = .Comment ∧ l.inComment = false ∧ ∃ c ∈ l.text, IsMark c)

section Events

variable {l : Lex} {L q r : List UInt8} {c : UInt8}

lemma Lex.AtLine.inComment (h : l.AtLine) : l.inComment = false := by
  rcases h with rfl | ⟨-, h, -⟩
  · rfl
  · exact h

lemma Lex.AtLine.not_value (h : l.AtLine) : l.state ≠ .Value := by
  rcases h with rfl | ⟨h, -⟩
  · decide
  · rw [h]
    decide

/-- What means nothing in a key means nothing in a comment. -/
lemma Lex.AtLine.inside (h : l.AtLine) (hc : Inside .Key c) : Inside l.state c := by
  rcases h with rfl | ⟨h, -⟩
  · exact hc
  · rw [h]
    exact ⟨hc.line, hc.close, fun _ => hc.bracket (by decide), fun _ => hc.mark (by decide), fun e => by cases e⟩

/-- A line that nothing is on but blanks. -/
lemma blank_events (hL : Blank L) : Lex.lineStart.events (L ++ [LF]) = [] := by
  rw [(after_blankLine rfl rfl hL []).1]
  rfl

lemma lineEvent_key (hst : l.state = .Key) (hne : l.text ≠ []) :
    l.lineEvent = some (.error (missingEquals (.ofBlock l.text))) := by
  rw [Lex.lineEvent, hst]
  exact if_neg hne

/-- A line with something on it, and nothing that means something. -/
lemma plain_events (hL : ∀ c ∈ L, Inside .Key c) (hne : ¬ Blank L) :
    ∃ x, Lex.lineStart.events (L ++ [LF]) = [.error x] := by
  rcases exists_first (P := fun c => ¬ (c = SP ∨ c = CR)) L with hall | ⟨a, c, r, rfl, ha, hc⟩
  · exact absurd (fun c hc => not_not.1 (hall c hc)) hne
  obtain ⟨hsp, hcr⟩ := not_or.1 hc
  have hin := hL c (by simp)
  have hput : Lex.lineStart.next c = Lex.lineStart.put c :=
    next_put rfl hsp (hin.mark (by decide)) hcr hin.line (hin.bracket (by decide)) hin.close fun e => hin.equals rfl e.1
  have hpassed := passed (l := Lex.lineStart.put c) rfl fun b (hb : b ∈ r) => hL b (by simp [hb])
  obtain ⟨u, hu⟩ := hpassed.text
  have hne : ((Lex.lineStart.put c).after r).text ≠ [] := by
    rw [hu]
    simp [Lex.put]
  refine ⟨missingEquals (.ofBlock ((Lex.lineStart.put c).after r).text), ?_⟩
  rw [List.append_assoc, (after_blank rfl rfl (fun b hb => not_not.1 (ha b hb)) _).1, List.cons_append, Lex.events, hin.event,
    hput, hpassed.lineEnd, lineEvent_key hpassed.state hne]
  rfl

/-- The reader behind the `=` of a line. -/
lemma passed_value (hq : Passed .lineStart q) (hr : ∀ b ∈ r, b ≠ LF ∧ ¬ IsBracket b) :
    Passed { Lex.lineStart.after q with
      state := .Value, text := (Lex.lineStart.after q).text ++ [NUL], spaces := 0
      value := (Lex.lineStart.after q).text.length + 1 } r :=
  passed hq.inComment fun b hb =>
    inside_of_not_bracket (hr b hb).1 (hr b hb).2 (fun e => absurd rfl e) fun e => by cases e

/-- A setting whose value has no bracket. -/
lemma setting_events (hl : l.AtLine) (hq : ∀ b ∈ q, Inside .Key b) (hc : IsEquals c) (hlf : LF ∉ q ++ c :: r)
    (hr : ∀ b ∈ r, ¬ IsBracket b) : ∀ e ∈ l.events (q ++ c :: r ++ [LF]), ∃ k v, e = .entry k v := by
  have hpassed := passed hl.inComment fun b hb => hl.inside (hq b hb)
  rcases hl with rfl | ⟨hst, hin, -⟩
  · have hvalue := passed_value hpassed fun b hb => ⟨fun e => hlf (by simp [← e, hb]), hr b hb⟩
    rw [List.append_assoc, List.cons_append, hpassed.equals rfl hc, hvalue.lineEnd, Lex.lineEvent, hvalue.state]
    exact fun e he => ⟨_, _, List.mem_singleton.1 he⟩
  · rcases comment_rest hst hin hlf with ⟨u, hu, -⟩ | ⟨hnone, -⟩ | ⟨a, b, r', hsplit, hb, -⟩
    · rw [hu]
      exact fun e he => ⟨_, _, List.mem_singleton.1 he⟩
    · rw [hnone]
      exact fun e he => by cases he
    · have hmem : b ∈ q ++ c :: r := by
        rw [hsplit]
        simp
      rcases List.mem_append.1 hmem with h | h
      · exact absurd hb fun h' => h'.elim ((hq b h).bracket (by decide)) (hq b h).close
      rcases List.mem_cons.1 h with rfl | h
      · rcases hc with rfl | rfl
        · exact absurd hb (by decide)
        · exact absurd hb (by decide)
      · exact absurd hb (hr b h)

/-- **A setting whose value has a bracket** adds no entry. -/
lemma noEntry_setting (hl : l.AtLine) (hq : ∀ b ∈ q, Inside .Key b) (hc : IsEquals c) (hlf : LF ∉ q ++ c :: r)
    (hr : ∃ b ∈ r, IsBracket b) : NoEntry (l.events (q ++ c :: r ++ [LF])) := by
  have hpassed := passed hl.inComment fun b hb => hl.inside (hq b hb)
  rcases hl with rfl | ⟨hst, hin, -⟩
  · rcases exists_first (P := IsBracket) r with hall | ⟨a, b, r', rfl, ha, hb⟩
    · obtain ⟨b, hb, hbr⟩ := hr
      exact absurd hbr (hall b hb)
    · have hvalue := passed_value (r := a) hpassed fun x hx => ⟨fun e => hlf (by simp [← e, hx]), ha x hx⟩
      rw [List.append_assoc, List.cons_append, hpassed.equals rfl hc]
      exact hvalue.noEntry hb fun e => hlf (by simp [e])
  · rcases comment_rest hst hin hlf with ⟨u, -, hclean⟩ | ⟨hnone, -⟩ | ⟨a, b, r', hsplit, hb, hpassed'⟩
    · obtain ⟨b, hb, hbr⟩ := hr
      exact absurd hbr (hclean b (by simp [hb])).2
    · exact Or.inl hnone
    · rw [hsplit]
      exact hpassed'.noEntry hb fun e => hlf (by rw [hsplit]; simp [e])

end Events

/-! ### Where the reader goes by the grammar -/

/-- The events `es` of the line `L` are what the grammar says, behind the groups `gs`. -/
structure Follows (gs : List Group) (L : List UInt8) (es : List Event) : Prop where
  errors : messages es = [] ↔ InGrammar L
  sections : (∀ name, ¬ HeaderLine L name) → es.countP Event.isHeader = 0
  header : ∀ name, HeaderLine L name → es.foldl addEvent gs = gs ++ [(wordOf name, [])]
  setting : ∀ key value, SettingLine L key value → (∃ c ∈ value, IsBracket c) →
    es.foldl addEvent gs = addEntry (wordOf key, wordOf value) gs ∧ messages es = []

section Obeys

variable {t : IniTable} {p L : List UInt8}

/-- On a line that it obeys, the reader stays inside the line buffer. -/
lemma Obeys.fits (h : Obeys t p L) (hin : InRange t.sections.cells.length (p ++ (L ++ [LF]))) :
    FitsBuffer (p ++ (L ++ [LF])) := by
  obtain ⟨gs, es, o, u, hread, -⟩ : ∃ gs es, ReadsTo 128 t (p ++ (L ++ [LF])) gs es := by
    by_cases hheader : ∃ name, HeaderLine L name
    · obtain ⟨name, hname⟩ := hheader
      obtain ⟨_, _, es', -, h'⟩ := h.header name hname
      exact ⟨_, es', h'⟩
    · obtain ⟨_, gs', _, es', -, h', -⟩ := h.sections fun name hname => hheader ⟨name, hname⟩
      exact ⟨gs', es', h'⟩
  by_contra hfit
  have hover := (iniTableRead_eq t (show InRange _ (IniIn.mk (p ++ (L ++ [LF])) false).data from hin)).2 hfit
  cases hread.symm.trans hover

lemma obeys_iff_follows (hfit : FitsBuffer (p ++ (L ++ [LF]))) (hin : InRange t.sections.cells.length (p ++ (L ++ [LF])))
    (hopen : groups (events p) ≠ []) :
    Obeys t p L ↔ Follows (groups (events p)) L ((Lex.after {} p).events (L ++ [LF])) := by
  obtain ⟨hp, hline⟩ := readings_of_line le_rfl hfit hin
  have hlen := length_groups ((Lex.after {} p).events (L ++ [LF])) hopen
  have herrors : (∃ gs gs' es, ReadsTo 128 t p gs es ∧ ReadsTo 128 t (p ++ (L ++ [LF])) gs' es) ↔
      messages ((Lex.after {} p).events (L ++ [LF])) = [] := by
    constructor
    · rintro ⟨gs, gs', es, h, h'⟩
      obtain rfl := (hp.unique h).2
      exact List.append_right_eq_self.1 (hline.unique h').2
    · intro h
      rw [h, List.append_nil] at hline
      exact ⟨_, _, _, hp, hline⟩
  constructor
  · intro h
    refine ⟨herrors.symm.trans h.errors, fun hno => ?_, fun name hname => ?_, fun key value hs hb => ?_⟩
    · obtain ⟨gs, gs', es, es', h1, h2, h3⟩ := h.sections hno
      obtain rfl := (hp.unique h1).1
      obtain rfl := (hline.unique h2).1
      rw [List.length_append, List.length_append, hlen] at h3
      omega
    · obtain ⟨gs, es, es', h1, h2⟩ := h.header name hname
      obtain rfl := (hp.unique h1).1
      have h3 := (hline.unique h2).1
      rw [List.append_assoc] at h3
      exact List.append_cancel_left h3
    · exact (addsEntry_iff le_rfl hfit hin hopen _ _).1 (h.setting key value hs hb)
  · intro h
    refine ⟨herrors.trans h.errors, fun hno => ?_, fun name hname => ?_, fun key value hs hb => ?_⟩
    · refine ⟨_, _, _, _, hp, hline, ?_⟩
      rw [List.length_append, List.length_append, hlen, h.sections hno]
      rfl
    · rw [h.header name hname, ← List.append_assoc t.contents] at hline
      exact ⟨_, _, _, hp, hline⟩
    · exact (addsEntry_iff le_rfl hfit hin hopen _ _).2 (h.setting key value hs hb)

end Obeys

section Cases

variable {l : Lex} {L q r : List UInt8} {c : UInt8} {gs : List Group}

/-- A line with nothing on it that means something. -/
lemma follows_plain (hl : l.AtLine) (hL : ∀ c ∈ L, Inside .Key c) :
    Follows gs L (l.events (L ++ [LF])) ↔ l.Orderly L := by
  obtain ⟨hcom, hhead, hset, hopen⟩ := plain_kinds hL
  have hin : InGrammar L ↔ Blank L := by simp [InGrammar, hcom, hhead, hset]
  have hord : l.Orderly L ↔ Blank L ∨ l.state ≠ .Comment := by
    simp only [Lex.Orderly, hcom, hhead, hset, hopen, false_and, exists_false, false_or, or_false, and_false]
    simp only [eq_true hL, true_and]
  have hfollows : Follows gs L (l.events (L ++ [LF])) ↔
      (messages (l.events (L ++ [LF])) = [] ↔ Blank L) ∧ (l.events (L ++ [LF])).countP Event.isHeader = 0 := by
    constructor
    · exact fun h => ⟨h.errors.trans hin, h.sections hhead⟩
    · rintro ⟨h1, h2⟩
      exact ⟨h1.trans hin.symm, fun _ => h2, fun name h => absurd h (hhead name),
        fun key value h => absurd h (hset key value)⟩
  rw [hfollows, hord]
  have hlf : LF ∉ L := fun h => (hL LF h).line rfl
  rcases hl with rfl | ⟨hst, hin', -⟩
  · refine iff_of_true ?_ (Or.inr (by decide))
    by_cases hb : Blank L
    · rw [blank_events hb]
      exact ⟨iff_of_true rfl hb, rfl⟩
    · obtain ⟨x, hx⟩ := plain_events hL hb
      rw [hx]
      exact ⟨iff_of_false (fun e => by cases e) hb, rfl⟩
  · rcases comment_rest hst hin' hlf with ⟨u, hu, -⟩ | ⟨-, c, hc, hm⟩ | ⟨a, c, r', rfl, hb, -⟩
    · rw [hu]
      simp [messages, Event.isHeader, hst]
    · exact absurd hm fun h => h.not_inside (hL c hc)
    · have hc := hL c (by simp)
      exact absurd hb fun h => h.elim (hc.bracket (by decide)) hc.close

section Split

variable (hl : l.AtLine) (hgs : gs ≠ []) (hq : ∀ b ∈ q, Inside .Key b)

include hq in
/-- The condition, by the first character that means something. -/
lemma orderly_split (hc : ¬ Inside .Key c) : l.Orderly (q ++ c :: r) ↔ (Blank q ∧ IsMark c) ∨
    (∃ name, HeaderLine (q ++ c :: r) name ∧ (∀ x ∈ name, ¬ IsMark x) ∧
      (l.state = .Comment → cstr l.text = (wordOf name).val)) ∨
    (IsEquals c ∧ ∀ b ∈ r, ¬ IsBracket b) ∨ (c = LBRACKET ∧ ∀ b ∈ r, b ≠ RBRACKET ∧ ¬ IsMark b) := by
  have hplain : ¬ ∀ b ∈ q ++ c :: r, Inside .Key b := fun h => hc (h c (by simp))
  have hopen : (∃ q' r', (∀ b ∈ q', Inside .Key b) ∧ (∀ b ∈ r', b ≠ RBRACKET ∧ ¬ IsMark b) ∧
      q ++ c :: r = q' ++ LBRACKET :: r') ↔ c = LBRACKET ∧ ∀ b ∈ r, b ≠ RBRACKET ∧ ¬ IsMark b := by
    constructor
    · rintro ⟨q', r', hq', hr', h⟩
      obtain ⟨-, rfl, rfl⟩ := first_unique h hq hc hq' not_inside_bracket
      exact ⟨rfl, hr'⟩
    · rintro ⟨rfl, hr⟩
      exact ⟨q, r, hq, hr, rfl⟩
  have hset : (∃ key value, SettingLine (q ++ c :: r) key value ∧ ∀ b ∈ value, ¬ IsBracket b) ↔
      IsEquals c ∧ ∀ b ∈ r, ¬ IsBracket b := by
    constructor
    · rintro ⟨key, value, h, hv⟩
      obtain ⟨he, -, rfl⟩ := (settingLine_split hq hc).1 h
      exact ⟨he, hv⟩
    · rintro ⟨he, hr⟩
      exact ⟨q, r, (settingLine_split hq hc).2 ⟨he, rfl, rfl⟩, hr⟩
  unfold Lex.Orderly
  simp only [not_blank_split (q := q) (r := r) hc, commentLine_split hq hc, hset, hopen, hplain, false_and, false_or]

include hl hgs hq

/-- A line with an `=`. -/
lemma follows_equals (hc : IsEquals c) (hlf : LF ∉ q ++ c :: r) :
    Follows gs (q ++ c :: r) (l.events (q ++ c :: r ++ [LF])) ↔ l.Orderly (q ++ c :: r) := by
  have hlb : c ≠ LBRACKET := by rcases hc with rfl | rfl <;> decide
  have hm : ¬ IsMark c := by rcases hc with rfl | rfl <;> decide
  have hhead : ∀ name, ¬ HeaderLine (q ++ c :: r) name := fun name h =>
    hlb ((headerLine_split hq hc.not_inside).1 h).2.1
  have hord : l.Orderly (q ++ c :: r) ↔ ∀ b ∈ r, ¬ IsBracket b := by
    rw [orderly_split hq hc.not_inside]
    simp [hm, hhead, hlb, hc]
  rw [hord]
  constructor
  · intro h b hb hbr
    have hno := noEntry_setting hl hq hc hlf ⟨b, hb, hbr⟩
    exact hno.not_adds hgs _ (h.setting q r ((settingLine_split hq hc.not_inside).2 ⟨hc, rfl, rfl⟩) ⟨b, hb, hbr⟩)
  · intro hr
    have hentries := setting_events hl hq hc hlf hr
    refine ⟨iff_of_true ?_ ((inGrammar_split hq hc.not_inside).2 (Or.inl hc)), fun _ => ?_,
      fun name h => absurd h (hhead name), ?_⟩
    · refine List.filterMap_eq_nil_iff.2 fun e he => ?_
      obtain ⟨k, v, rfl⟩ := hentries e he
      rfl
    · refine List.countP_eq_zero.2 fun e he => ?_
      obtain ⟨k, v, rfl⟩ := hentries e he
      exact Bool.false_ne_true
    · rintro key value h ⟨b, hb, hbr⟩
      obtain ⟨-, -, rfl⟩ := (settingLine_split hq hc.not_inside).1 h
      exact absurd hbr (hr b hb)

omit hgs in
/-- A line with a mark. -/
lemma follows_mark (hc : IsMark c) (hlf : LF ∉ q ++ c :: r) :
    Follows gs (q ++ c :: r) (l.events (q ++ c :: r ++ [LF])) ↔ l.Orderly (q ++ c :: r) := by
  have hlb : c ≠ LBRACKET := by rcases hc with rfl | rfl <;> decide
  have he : ¬ IsEquals c := by rcases hc with rfl | rfl <;> decide
  have hhead : ∀ name, ¬ HeaderLine (q ++ c :: r) name := fun name h =>
    hlb ((headerLine_split hq hc.not_inside).1 h).2.1
  have hpassed := passed hl.inComment fun b hb => hl.inside (hq b hb)
  have hr : LF ∉ r := fun e => hlf (by simp [e])
  have hnone := hpassed.comment hl.not_value hc hr
  have hord : l.Orderly (q ++ c :: r) ↔ Blank q := by
    rw [orderly_split hq hc.not_inside]
    simp [he, hhead, hlb, hc]
  have hgrammar : InGrammar (q ++ c :: r) ↔ Blank q := by
    rw [inGrammar_split hq hc.not_inside]
    simp [he, hc]
  rw [hord, hnone, ← hgrammar]
  constructor
  · exact fun h => h.errors.1 rfl
  · exact fun h => ⟨iff_of_true rfl h, fun _ => rfl, fun name h => absurd h (hhead name),
      fun key value h => absurd ((settingLine_split hq hc.not_inside).1 h).1 he⟩

omit hgs in
/-- A line with a `]` that no `[` opens. -/
lemma follows_close : Follows gs (q ++ RBRACKET :: r) (l.events (q ++ RBRACKET :: r ++ [LF])) ↔
    l.Orderly (q ++ RBRACKET :: r) := by
  have hc : ¬ Inside .Key RBRACKET := by decide
  have hhead : ∀ name, ¬ HeaderLine (q ++ RBRACKET :: r) name := fun name h =>
    absurd ((headerLine_split hq hc).1 h).2.1 (by decide)
  have hpassed := passed hl.inComment fun b hb => hl.inside (hq b hb)
  refine iff_of_false (fun h => ?_) fun h => ?_
  · have hcount := h.sections hhead
    rw [List.append_assoc, List.cons_append, hpassed.close, List.countP_cons] at hcount
    simp [Event.isHeader] at hcount
  · rw [orderly_split hq hc] at h
    rcases h with ⟨-, h⟩ | ⟨name, h, -⟩ | ⟨h, -⟩ | ⟨h, -⟩
    · exact absurd h (by decide)
    · exact hhead name h
    · exact absurd h (by decide)
    · exact absurd h (by decide)

end Split

/-- Blanks leave a new line as it is. -/
lemma after_of_blank {b : List UInt8} (hb : Blank b) : Lex.lineStart.after b = .lineStart := by
  induction b with
  | nil => rfl
  | cons c b ih =>
    obtain ⟨hc, hb⟩ := List.forall_mem_cons.1 hb
    rw [Lex.after_cons, (next_blank rfl rfl hc).1, ih hb]

lemma wordOf_subset (s : List UInt8) : (wordOf s).val ⊆ s := by
  intro c hc
  have h1 := (cstr_isPrefix _).subset hc
  have h2 := (List.rdropWhile_prefix _ _).subset h1
  have h3 := (List.dropWhile_suffix _).subset h2
  exact List.mem_of_mem_filter h3

/-- The header that a line completes has its name, unless it stands in a comment. -/
lemma header_name_iff {a : List UInt8} (hl : l.AtLine) (hq : Blank q) (ha : ∀ b ∈ a, Inside .Section b ∧ b ≠ LBRACKET) :
    CString.ofBlock (Lex.after { l.after q with state := .Section } a).text = wordOf a ↔
      (l.state = .Comment → cstr l.text = (wordOf a).val) := by
  have hpassed := passed hl.inComment fun b hb => hl.inside (hq.inside .Key b hb)
  have hname := passed (l := { l.after q with state := .Section }) (s := a) hpassed.inComment fun b hb => (ha b hb).1
  rcases hl with rfl | ⟨hst, -, hmark⟩
  · refine iff_of_true ?_ fun e => by cases e
    rw [after_of_blank hq]
    exact name_of_header ha
  · obtain ⟨u, hu⟩ := hpassed.text
    obtain ⟨w, hw⟩ := hname.text
    have hclean : ∀ c ∈ (wordOf a).val, ¬ IsMark c := fun c hc => (ha c (wordOf_subset a hc)).1.mark (by decide)
    rw [hw, hu, List.append_assoc, ofBlock_eq_iff, cstr_comment_iff hclean hmark]
    simp [hst]

section Open

variable {a : List UInt8} (hq : ∀ b ∈ q, Inside .Key b)

include hq

/-- A line with a `[` is a header line, or nothing in the grammar. -/
lemma follows_open_iff {es : List Event} : Follows gs (q ++ LBRACKET :: r) es ↔
    (messages es = [] ↔ ∃ name, HeaderLine (q ++ LBRACKET :: r) name) ∧
      ((∀ name, ¬ HeaderLine (q ++ LBRACKET :: r) name) → es.countP Event.isHeader = 0) ∧
      ∀ name, HeaderLine (q ++ LBRACKET :: r) name → es.foldl addEvent gs = gs ++ [(wordOf name, [])] := by
  have hlb := not_inside_bracket
  have hset : ∀ key value, ¬ SettingLine (q ++ LBRACKET :: r) key value := fun key value h =>
    absurd ((settingLine_split hq hlb).1 h).1 (by decide)
  have hgrammar : InGrammar (q ++ LBRACKET :: r) ↔ ∃ name, HeaderLine (q ++ LBRACKET :: r) name := by
    rw [inGrammar_split hq hlb]
    constructor
    · rintro (h | ⟨-, h | h⟩)
      · exact absurd h (by decide)
      · exact absurd h (by decide)
      · exact h
    · rintro ⟨name, h⟩
      exact Or.inr ⟨((headerLine_split hq hlb).1 h).1, Or.inr ⟨name, h⟩⟩
  constructor
  · exact fun h => ⟨h.errors.trans hgrammar, h.sections, h.header⟩
  · rintro ⟨herrors, hsections, hheader⟩
    exact ⟨herrors.trans hgrammar.symm, hsections, hheader, fun key value h => absurd h (hset key value)⟩

lemma orderly_open : l.Orderly (q ++ LBRACKET :: r) ↔
    (∃ name, HeaderLine (q ++ LBRACKET :: r) name ∧ (∀ x ∈ name, ¬ IsMark x) ∧
      (l.state = .Comment → cstr l.text = (wordOf name).val)) ∨ ∀ b ∈ r, b ≠ RBRACKET ∧ ¬ IsMark b := by
  rw [orderly_split hq not_inside_bracket]
  simp [show ¬ IsMark LBRACKET by decide, show ¬ IsEquals LBRACKET by decide]

/-- The name of a header line ends at the first `]`. -/
lemma headerLine_closed {name : List UInt8} (ha : ∀ b ∈ a, b ≠ RBRACKET) :
    HeaderLine (q ++ LBRACKET :: (a ++ RBRACKET :: r)) name ↔
      Blank q ∧ Blank r ∧ (∀ x ∈ a, ¬ IsBracket x) ∧ name = a := by
  rw [headerLine_split hq not_inside_bracket]
  constructor
  · rintro ⟨hbq, -, b, hb, hname, h⟩
    obtain ⟨rfl, -, rfl⟩ := first_unique (P := fun x => x ≠ RBRACKET) h ha (by simp) (fun x hx e => hname x hx (Or.inr e))
      (by simp)
    exact ⟨hbq, hb, hname, rfl⟩
  · rintro ⟨hbq, hb, hname, rfl⟩
    exact ⟨hbq, rfl, r, hb, hname, rfl⟩

/-- The name of a header line stands before the marks. -/
lemma not_isMark_of_header {name : List UInt8} (h : HeaderLine (q ++ LBRACKET :: r) name) (hclean : ∀ x ∈ name, ¬ IsMark x) :
    ∀ x ∈ r, ¬ IsMark x := by
  obtain ⟨-, -, b, hb, -, rfl⟩ := (headerLine_split hq not_inside_bracket).1 h
  intro x hx
  rcases List.mem_append.1 hx with hx | hx
  · exact hclean x hx
  rcases List.mem_cons.1 hx with rfl | hx
  · decide
  · exact (hb.inside .Key x hx).mark (by decide)

/-- A line with a `[` that a `]` closes. -/
lemma follows_closed (hl : l.AtLine) (hlf : LF ∉ a) (ha : ∀ b ∈ a, b ≠ RBRACKET ∧ ¬ IsMark b) :
    Follows gs (q ++ LBRACKET :: (a ++ RBRACKET :: r))
        (.header (.ofBlock (Lex.after { l.after q with state := .Section } a).text) :: Lex.lineStart.events (r ++ [LF])) ↔
      l.Orderly (q ++ LBRACKET :: (a ++ RBRACKET :: r)) := by
  have hhead : ∀ name, HeaderLine (q ++ LBRACKET :: (a ++ RBRACKET :: r)) name ↔
      Blank q ∧ Blank r ∧ (∀ x ∈ a, ¬ IsBracket x) ∧ name = a := fun name => headerLine_closed hq fun b hb => (ha b hb).1
  have hclosed : ¬ ∀ b ∈ a ++ RBRACKET :: r, b ≠ RBRACKET ∧ ¬ IsMark b := fun h => (h RBRACKET (by simp)).1 rfl
  rw [orderly_open hq, or_iff_left hclosed]
  by_cases hH : Blank q ∧ Blank r ∧ ∀ x ∈ a, ¬ IsBracket x
  · obtain ⟨hbq, hbr, hna⟩ := hH
    have hself := (hhead a).2 ⟨hbq, hbr, hna, rfl⟩
    have hletters : ∀ b ∈ a, Inside .Section b ∧ b ≠ LBRACKET := fun b hb =>
      ⟨inside_section (fun e => hlf (e ▸ hb)) (ha b hb), fun e => hna b hb (Or.inl e)⟩
    have hname := header_name_iff hl hbq hletters
    rw [blank_events hbr]
    constructor
    · intro h
      have hsame := (List.cons.inj (List.append_cancel_left (h.header a hself))).1
      exact ⟨a, hself, fun x hx => (ha x hx).2, hname.1 (Prod.mk.inj hsame).1⟩
    · rintro ⟨name, h, -, hcut⟩
      obtain rfl := ((hhead name).1 h).2.2.2
      refine (follows_open_iff hq).2 ⟨iff_of_true rfl ⟨_, h⟩, fun hno => absurd h (hno _), fun name' h' => ?_⟩
      obtain rfl := ((hhead name').1 h').2.2.2
      rw [hname.2 hcut]
      rfl
  · have hno : ∀ name, ¬ HeaderLine (q ++ LBRACKET :: (a ++ RBRACKET :: r)) name := fun name h =>
      hH ⟨((hhead name).1 h).1, ((hhead name).1 h).2.1, ((hhead name).1 h).2.2.1⟩
    refine iff_of_false (fun h => ?_) fun ⟨name, h, _⟩ => hno name h
    have hcount := h.sections hno
    rw [List.countP_cons] at hcount
    simp [Event.isHeader] at hcount

/-- A line with a `[`. -/
lemma follows_open (hl : l.AtLine) (hlf : LF ∉ q ++ LBRACKET :: r) :
    Follows gs (q ++ LBRACKET :: r) (l.events (q ++ LBRACKET :: r ++ [LF])) ↔ l.Orderly (q ++ LBRACKET :: r) := by
  have hr : LF ∉ r := fun e => hlf (by simp [e])
  have hpassed := passed hl.inComment fun b hb => hl.inside (hq b hb)
  rw [List.append_assoc, List.cons_append, hpassed.bracket]
  rcases section_rest (m := { l.after q with state := .Section }) rfl hpassed.inComment hr with
    ⟨x, hx, hclean⟩ | ⟨hnone, a, c, r', rfl, -, hm⟩ | ⟨a, r', rfl, ha, hevents⟩
  · -- the bracket is not closed, which is an error on both sides
    have hno : ∀ name, ¬ HeaderLine (q ++ LBRACKET :: r) name := fun name h => by
      obtain ⟨-, -, b, -, -, rfl⟩ := (headerLine_split hq not_inside_bracket).1 h
      exact (hclean RBRACKET (by simp)).1 rfl
    rw [hx]
    refine iff_of_true ((follows_open_iff hq).2 ⟨iff_of_false (fun e => by cases e) fun ⟨name, h⟩ => hno name h,
      fun _ => rfl, fun name h => absurd h (hno name)⟩) ((orderly_open hq).2 (Or.inr hclean))
  · -- a comment opens behind the bracket, and nothing comes of the line
    have hmem : c ∈ a ++ c :: r' := by simp
    rw [hnone]
    refine iff_of_false (fun h => ?_) fun h => ?_
    · obtain ⟨herrors, -, hheader⟩ := (follows_open_iff hq).1 h
      obtain ⟨name, hname⟩ := herrors.1 rfl
      have hlen := congrArg List.length (hheader name hname)
      simp at hlen
    · rcases (orderly_open hq).1 h with ⟨name, h, hclean, -⟩ | h
      · exact not_isMark_of_header hq h hclean c hmem hm
      · exact (h c hmem).2 hm
  · rw [hevents]
    exact follows_closed hq hl (fun e => hr (by simp [e])) ha

end Open

/-- **One line.** -/
lemma follows_iff (hl : l.AtLine) (hgs : gs ≠ []) (hlf : LF ∉ L) : Follows gs L (l.events (L ++ [LF])) ↔ l.Orderly L := by
  rcases exists_first (P := fun c => ¬ Inside .Key c) L with hall | ⟨q, c, r, rfl, hq, hc⟩
  · exact follows_plain hl fun c hc => not_not.1 (hall c hc)
  have hq' : ∀ b ∈ q, Inside .Key b := fun b hb => not_not.1 (hq b hb)
  rcases not_inside_cases hc (fun e => hlf (by simp [e])) with he | hm | rfl | rfl
  · exact follows_equals hl hgs hq' he hlf
  · exact follows_mark hl hq' hm hlf
  · exact follows_open hq' hl hlf
  · exact follows_close hl hq'

end Cases

/-- **Where the reader goes by the grammar.** -/
theorem obeys_iff {p L : List UInt8} (t : IniTable) (hin : InRange t.sections.cells.length (p ++ (L ++ [LF])))
    (hp : p.getLast? = some LF) (hopen : groups (events p) ≠ []) (hL : LF ∉ L) :
    Obeys t p L ↔ FitsBuffer (p ++ (L ++ [LF])) ∧ (Lex.after {} p).Orderly L := by
  rw [← follows_iff (lineBegin hp) hopen hL]
  constructor
  · intro h
    exact ⟨h.fits hin, (obeys_iff_follows (h.fits hin) hin hopen).1 h⟩
  · rintro ⟨hfit, h⟩
    exact (obeys_iff_follows hfit hin hopen).2 h

/-- A setting with a comment behind its value. -/
theorem obeys_setting : Obeys iniTableCreate (bytes "[s]\n") (bytes "k = v ; c") := by
  have hset : SettingLine (bytes "k = v ; c") (bytes "k ") (bytes " v ; c") :=
    ⟨EQUALS, by decide +kernel, Or.inl rfl, by decide +kernel⟩
  refine (obeys_iff iniTableCreate (by decide +kernel) (by decide) (by decide +kernel) (by decide +kernel)).2
    ⟨by decide +kernel, ?_⟩
  exact Or.inr (Or.inr (Or.inr (Or.inl ⟨_, _, hset, by decide +kernel⟩)))

/-- A value in brackets. -/
def bracketLine : List UInt8 := bytes "k = [v]"

/-- The line starts a section `k`. -/
theorem not_obeys : ¬ ∀ (t : IniTable) (p L : List UInt8), p.getLast? = some LF → groups (events p) ≠ [] → LF ∉ L →
    Obeys t p L := by
  intro h
  have hset : SettingLine bracketLine (bytes "k ") (bytes " [v]") :=
    ⟨EQUALS, by decide +kernel, Or.inl rfl, by decide +kernel⟩
  obtain ⟨gs, g, errors, hbefore, hafter⟩ := (h iniTableCreate (bytes "[s]\n") bracketLine (by decide)
    (by decide +kernel) (by decide +kernel)).setting _ _ hset ⟨LBRACKET, by decide +kernel, Or.inl rfl⟩
  have hread : ((iniTableReadIn 128 iniTableCreate ⟨bytes "[s]\n", false⟩).toOption.bind
      (fun o => o.sink.table.map IniTable.contents)).map List.length = some 1 := by decide +kernel
  have hread' : ((iniTableReadIn 128 iniTableCreate ⟨bytes "[s]\n" ++ (bracketLine ++ [LF]), false⟩).toOption.bind
      (fun o => o.sink.table.map IniTable.contents)).map List.length = some 2 := by decide +kernel
  rw [hbefore.contents] at hread
  rw [hafter.contents] at hread'
  simp only [Option.map_some, List.length_append, List.length_singleton, Option.some.injEq] at hread hread'
  omega

end Wrensong.Ini
