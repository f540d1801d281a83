import Wrensong.Ini.Lines
import Wrensong.Ini.Pieces

/-!
# Values that are kept verbatim

The line `k = v` inside a section. The reader puts spaces off, and the branch for a mark in a value stores the mark without
them: a space that stands directly before a `;` or `#` moves behind it (`value_line_iff`). All other values come back byte
for byte, if the line is not read into a comment that has lost its newline (`addsEntry_line_iff`).
-/

namespace Wrensong.Ini

open Wrensong.Lib Wrensong.Lib.Bytes

/-- The character has a case of its own in the reader, or ends a string. -/
def Special (c : UInt8) : Prop := c = SP ∨ c = CR ∨ c = LF ∨ c = NUL ∨ IsMark c ∨ IsBracket c ∨ IsEquals c

instance : DecidablePred Special := fun c => by unfold Special; infer_instance

/-- A value without line ends and brackets, and with no space at its start and end. -/
structure LineValue (v : CString) : Prop where
  letters : ∀ c ∈ v.val, c ≠ CR ∧ c ≠ LF ∧ ¬ IsBracket c
  leading : v.val.head? ≠ some SP
  trailing : v.val.getLast? ≠ some SP

/-- The line of an entry. -/
def entryLine (k v : CString) : List UInt8 := k.val ++ bytes " = " ++ v.val ++ [LF]

/-- A space stands directly before a mark. -/
def SpaceBeforeMark (s : List UInt8) : Prop := [SP, SEMICOLON] <:+: s ∨ [SP, HASH] <:+: s

instance : DecidablePred SpaceBeforeMark := fun s =>
  inferInstanceAs (Decidable ([SP, SEMICOLON] <:+: s ∨ [SP, HASH] <:+: s))

/-- The line `k = v` is kept by a reader that has the state `l` before it. In a comment that has lost its newline it is so
only where a `NUL` before the mark has cut the comment to `k`, and the value is empty. -/
def Lex.KeepsEntry (l : Lex) (k v : CString) : Prop :=
  if l.state = .Comment then v.val = [] ∧ cstr l.text = k.val else ¬ SpaceBeforeMark v.val

instance (l : Lex) (k v : CString) : Decidable (l.KeepsEntry k v) := by
  unfold Lex.KeepsEntry
  infer_instance

/-! ### The value -/

section Value

variable {k v : CString} {s : List UInt8}

lemma inside_of_not_bracket {st : LineState} {c : UInt8} (hlf : c ≠ LF) (hb : ¬ IsBracket c)
    (hm : st ≠ .Value → ¬ IsMark c) (he : st = .Key → ¬ IsEquals c) : Inside st c :=
  ⟨hlf, fun e => hb (Or.inr e), fun _ e => hb (Or.inl e), hm, he⟩

lemma LineValue.inside (h : LineValue v) : ∀ c ∈ v.val, Inside .Value c := fun c hc =>
  inside_of_not_bracket (h.letters c hc).2.1 (h.letters c hc).2.2 (fun e => absurd rfl e) fun e => by cases e

lemma LineValue.spelled (h : LineValue v) (hs : s <+: v.val) (hm : ¬ SpaceBeforeMark s) : Spelled .Value s where
  letters := fun c hc => by
    obtain ⟨hcr, hlf, hb⟩ := h.letters c (hs.subset hc)
    obtain ⟨hlb, hrb⟩ := not_or.1 hb
    exact ⟨hlf, hcr, fun e => v.noNul (e ▸ hs.subset hc), hlb, hrb, fun e => absurd rfl e, fun e => by cases e⟩
  leading := head?_ne_of_isPrefix h.leading hs
  comment := fun _ => not_or.1 hm

/-- The texts differ where the second has a space. -/
def Parted (u v : List UInt8) : Prop := ∃ q m x y, u = q ++ m :: x ∧ v = q ++ SP :: y ∧ IsMark m

lemma Parted.append {u v : List UInt8} (h : Parted u v) (x y : List UInt8) : Parted (u ++ x) (v ++ y) := by
  obtain ⟨q, m, x', y', rfl, rfl, hm⟩ := h
  exact ⟨q, m, x' ++ x, y' ++ y, by simp, by simp, hm⟩

/-- **A space before a mark moves.** The induction is on the value from its end; the first such space is where the text
leaves the value. -/
lemma parted_of_spaceBeforeMark (h : LineValue v) (hs : s <+: v.val) (hm : SpaceBeforeMark s) (q : List UInt8) :
    ∃ u, ((Lex.valueStart q).after s).text = (Lex.valueStart q).text ++ u ∧ Parted u s := by
  induction s using List.reverseRecOn with
  | nil => simp [SpaceBeforeMark] at hm
  | append_singleton s c ih =>
    have hs' : s <+: v.val := (List.prefix_append s [c]).trans hs
    have hinside : ∀ b ∈ s, Inside (Lex.valueStart q).state b := fun b hb => h.inside b (hs'.subset hb)
    have hpassed := passed (l := .valueStart q) rfl hinside
    have hc : Inside ((Lex.valueStart q).after s).state c := hpassed.state ▸ h.inside c (hs.subset (by simp))
    rw [Lex.after_append, Lex.after_cons, Lex.after_nil]
    by_cases hbefore : SpaceBeforeMark s
    · obtain ⟨u, hu, hpart⟩ := ih hs' hbefore
      obtain ⟨-, -, -, w, hw⟩ := passed_char hpassed.inComment hc
      exact ⟨u ++ w, by rw [hw, hu, List.append_assoc], hpart.append w [c]⟩
    · -- the space is the last one that was put off
      have hpair : s.getLast? = some SP ∧ IsMark c := by
        rcases hm with hm | hm
        · obtain ⟨hlast, hc⟩ := (pair_infix_concat hm).resolve_left fun e => hbefore (Or.inl e)
          exact ⟨hlast, Or.inl hc⟩
        · obtain ⟨hlast, hc⟩ := (pair_infix_concat hm).resolve_left fun e => hbefore (Or.inr e)
          exact ⟨hlast, Or.inr hc⟩
      obtain ⟨w, j, hw, hlast, hafter, -⟩ := after_word (l := .valueStart q) (h.spelled hs' hbefore) rfl rfl rfl
        (by simp [Lex.start, Lex.valueStart])
      obtain ⟨i, rfl⟩ : ∃ i, j = i + 1 := by
        refine Nat.exists_eq_succ_of_ne_zero fun e => hlast ?_
        rw [e, List.replicate_zero, List.append_nil] at hw
        rw [← hw]
        exact hpair.1
      refine ⟨w ++ [c], ?_, w, c, [], List.replicate i SP ++ [c], rfl, ?_, hpair.2⟩
      · rw [hafter, next_mark_value rfl rfl hpair.2, List.append_assoc]
      · rw [hw, List.replicate_succ]
        simp

/-- **The value of a line** is the one that stands there, if no space is directly before a mark. -/
lemma value_line_iff (h : LineValue v) (k : CString) :
    ∃ w, (Lex.valueStart k.val).events (v.val ++ [LF]) = [.entry k w] ∧ (w = v ↔ ¬ SpaceBeforeMark v.val) := by
  have hpassed := passed (l := .valueStart k.val) rfl h.inside
  obtain ⟨u, hu⟩ := hpassed.text
  have htext : (Lex.valueStart k.val).text = k.val ++ [NUL] := rfl
  have hvalue : ((Lex.valueStart k.val).after v.val).value = k.val.length + 1 := hpassed.value
  have hdrop : ((Lex.valueStart k.val).after v.val).text.drop (k.val.length + 1) = u := by
    rw [hu, htext]
    exact List.drop_left' (by simp)
  have hkey : CString.ofBlock ((Lex.valueStart k.val).after v.val).text = k := by
    ext1
    rw [hu, htext, CString.ofBlock_val, cstr_append_of_mem (by simp), cstr_append_nul k.clear]
  refine ⟨.ofBlock u, ?_, ?_⟩
  · rw [hpassed.lineEnd, Lex.lineEvent, hpassed.state]
    simp only [Lex.valueStart] at hvalue hdrop hkey ⊢
    rw [hkey, hvalue, hdrop]
    rfl
  · constructor
    · intro hw hm
      obtain ⟨u', hu', q, m, x, y, rfl, hy, hmark⟩ := parted_of_spaceBeforeMark h List.prefix_rfl hm k.val
      obtain rfl := List.append_cancel_left (hu.symm.trans hu')
      have hclear : Clear none (q ++ [m]) := by
        have hv := v.clear
        rw [hy, clear_append] at hv
        refine clear_append.2 ⟨hv.1, ?_⟩
        rcases hmark with rfl | rfl <;> decide
      have hcut : (CString.ofBlock (q ++ m :: x)).val = q ++ m :: cstr x := by
        rw [CString.ofBlock_val, show q ++ m :: x = q ++ [m] ++ x by simp, cstr_append_of_clear hclear]
        simp
      rw [hw, hy] at hcut
      have hne := (List.cons.inj (List.append_cancel_left hcut)).1
      rcases hmark with rfl | rfl <;> cases hne
    · intro hm
      obtain ⟨w, j, hw, -, hafter, -⟩ := after_word (l := .valueStart k.val) (h.spelled List.prefix_rfl hm) rfl rfl rfl
        (by simp [Lex.start, Lex.valueStart])
      have hj : j = 0 := spaces_eq_zero (hw ▸ h.trailing)
      rw [hj, List.replicate_zero, List.append_nil] at hw
      rw [hafter] at hu
      obtain rfl := List.append_cancel_left hu
      rw [← hw, CString.ofBlock_self]

end Value

/-! ### The line -/

section Line

variable {k v : CString} {l : Lex}

/-- The line of its own. -/
lemma entryLine_events (hk : ∀ c ∈ k.val, ¬ Special c) (v : CString) :
    Lex.lineStart.events (entryLine k v) = (Lex.valueStart k.val).events (v.val ++ [LF]) := by
  have hspaces : SP ∉ k.val := fun h => hk SP h (Or.inl rfl)
  have hspelled : Spelled .Key k.val := by
    refine ⟨fun c hc => ?_, fun h => hspaces (List.mem_of_head? h), fun e => by cases e⟩
    have hnot := hk c hc
    simp only [Special, IsMark, IsBracket, IsEquals, not_or] at hnot
    obtain ⟨-, hcr, hlf, h0, hm, ⟨hlb, hrb⟩, he⟩ := hnot
    exact ⟨hlf, hcr, h0, hlb, hrb, fun _ => hm, fun _ => he⟩
  obtain ⟨q, j, hq, -, hafter, hevents⟩ := after_word (l := .lineStart) hspelled rfl rfl rfl rfl
  have hj : j = 0 := spaces_eq_zero (q := q) fun e => hspaces (List.mem_of_getLast? (hq ▸ e))
  rw [hj, List.replicate_zero, List.append_nil] at hq
  rw [entryLine, List.append_assoc, List.append_assoc, Lex.events_append, hevents, List.nil_append, hafter, hj, ← hq]
  exact events_equals k.val 0 (v.val ++ [LF])

/-- The line in a comment that goes on: it ends the comment, or a mark in it opens the comment again. -/
lemma entryLine_comment (hl : l.state = .Comment) (hc : l.inComment = false) (hk : ∀ c ∈ k.val, ¬ Special c)
    (hv : LineValue v) :
    (l.events (entryLine k v) = [] ∧ v.val ≠ []) ∨
      ∃ u, l.events (entryLine k v) = [.entry (.ofBlock (l.text ++ u)) (.ofBlock [])] := by
  have hmem : ∀ c, c ∈ k.val ++ bytes " = " ++ v.val → c ∈ k.val ∨ (c = SP ∨ c = EQUALS) ∨ c ∈ v.val := by
    intro c h
    rw [show bytes " = " = [SP, EQUALS, SP] by decide] at h
    simp only [List.mem_append, List.mem_cons, List.not_mem_nil, or_false] at h
    tauto
  have hclean : ∀ c ∈ k.val ++ bytes " = " ++ v.val, c ≠ LF ∧ ¬ IsBracket c := by
    intro c h
    rcases hmem c h with h | h | h
    · have hnot := hk c h
      simp only [Special, not_or] at hnot
      exact ⟨hnot.2.2.1, hnot.2.2.2.2.2.1⟩
    · rcases h with rfl | rfl
      · decide
      · decide
    · exact (hv.letters c h).2
  have hlf : LF ∉ k.val ++ bytes " = " ++ v.val := fun e => (hclean LF e).1 rfl
  rcases comment_rest hl hc hlf with ⟨u, hu, -⟩ | ⟨hnone, c, h, hm⟩ | ⟨q, c, r, hsplit, hb, -⟩
  · exact Or.inr ⟨u, hu⟩
  · refine Or.inl ⟨hnone, fun hnil => ?_⟩
    rcases hmem c h with h | h | h
    · exact hk c h (by simp [Special, hm])
    · rcases h with rfl | rfl
      · exact absurd hm (by decide)
      · exact absurd hm (by decide)
    · rw [hnil] at h
      cases h
  · exact absurd hb (hclean c (by rw [hsplit]; simp)).2

/-- A comment that goes on is cut to a key by a `NUL` before its mark only. -/
lemma cstr_comment_iff {t u : List UInt8} (hk : ∀ c ∈ k.val, ¬ IsMark c) (ht : ∃ c ∈ t, IsMark c) :
    cstr (t ++ u) = k.val ↔ cstr t = k.val := by
  by_cases h0 : NUL ∈ t
  · rw [cstr_append_of_mem h0]
  · have hclear : Clear none t := fun c hc => ⟨fun e => h0 (e ▸ hc), by simp⟩
    obtain ⟨c, hc, hm⟩ := ht
    rw [cstr_append_of_clear hclear, cstr_of_clear hclear]
    refine iff_of_false (fun e => ?_) (fun e => ?_)
    · exact hk c (e ▸ List.mem_append_left _ hc) hm
    · exact hk c (e ▸ hc) hm

lemma ofBlock_eq_iff {s : List UInt8} {k : CString} : CString.ofBlock s = k ↔ cstr s = k.val := by
  rw [CString.ext_iff, CString.ofBlock_val]

end Line

/-- An entry is the one that a group got. -/
lemma addEntry_inj {a b : CString × CString} (gs : List Group) : addEntry a gs = addEntry b gs ↔ a = b := by
  rcases List.eq_nil_or_concat' gs with rfl | ⟨gs, g, rfl⟩
  · simp [addEntry]
  · rw [addEntry_concat, addEntry_concat]
    simp

lemma addEntry_ne (e : CString × CString) {gs : List Group} (hgs : gs ≠ []) : addEntry e gs ≠ gs := by
  obtain ⟨gs, g, rfl⟩ := (List.eq_nil_or_concat' gs).resolve_left hgs
  rw [addEntry_concat]
  intro h
  have hg := (List.cons.inj (List.append_cancel_left h)).1
  have hlen := congrArg (fun g : Group => g.2.length) hg
  simp at hlen

/-- **When the line `k = v` adds the entry (k, v).** -/
theorem addsEntry_line_iff {n : ℕ} {p : List UInt8} {k v : CString} (t : IniTable) (hn : Ample n (p ++ entryLine k v))
    (hin : InRange t.sections.cells.length (p ++ entryLine k v)) (hp : p.getLast? = some LF)
    (hopen : groups (events p) ≠ []) (hk : ∀ c ∈ k.val, ¬ Special c) (hv : LineValue v) :
    AddsEntry n t p (entryLine k v) k v ↔ (Lex.after {} p).KeepsEntry k v := by
  rw [addsEntry_iff hn.1 hn.fits hin hopen, Lex.KeepsEntry]
  rcases lineBegin hp with hstart | ⟨hst, hcomment, hmark⟩
  · obtain ⟨w, hw, hiff⟩ := value_line_iff hv k
    rw [hstart, entryLine_events hk, hw, if_neg (by decide), ← hiff]
    have hadd : [Event.entry k w].foldl addEvent (groups (events p)) = addEntry (k, w) (groups (events p)) := rfl
    rw [hadd, addEntry_inj, Prod.mk.injEq]
    simp [messages]
  · rw [if_pos hst]
    rcases entryLine_comment hst hcomment hk hv with ⟨hnone, hne⟩ | ⟨u, hu⟩
    · rw [hnone]
      exact iff_of_false (fun h => addEntry_ne _ hopen h.1.symm) fun h => hne h.1
    · have hadd : [Event.entry (.ofBlock ((Lex.after {} p).text ++ u)) (.ofBlock [])].foldl addEvent (groups (events p)) =
        addEntry (.ofBlock ((Lex.after {} p).text ++ u), .ofBlock []) (groups (events p)) := rfl
      have hkey : ∀ c ∈ k.val, ¬ IsMark c := fun c hc hm => hk c hc (by simp [Special, hm])
      rw [hu, hadd, addEntry_inj, Prod.mk.injEq, ofBlock_eq_iff, ofBlock_eq_iff, cstr_comment_iff hkey hmark]
      simp [messages, and_comm, eq_comm, show cstr [] = [] from rfl]

/-- A value with spaces, marks and `=`, none of the marks behind a space. -/
def oddValue : CString := .ofBlock (bytes "a  b;c =#d")

theorem addsEntry_oddValue : AddsEntry 128 iniTableCreate (bytes "[s]\n") (entryLine (.ofBlock (bytes "k")) oddValue)
    (.ofBlock (bytes "k")) oddValue :=
  (addsEntry_line_iff iniTableCreate (by decide +kernel) (by decide +kernel) (by decide) (by decide +kernel) (by decide +kernel)
    ⟨by decide +kernel, by decide +kernel, by decide +kernel⟩).2 (by decide +kernel)

/-- A value with a space before a `;`. -/
def spacedValue : CString := .ofBlock (bytes "a ;b")

/-- The space moves behind the `;`. -/
theorem not_addsEntry : ¬ ∀ (n : ℕ) (t : IniTable) (p : List UInt8) (k v : CString), Ample n (p ++ entryLine k v) →
    p.getLast? = some LF → groups (events p) ≠ [] → (∀ c ∈ k.val, ¬ Special c) → LineValue v →
    AddsEntry n t p (entryLine k v) k v := by
  intro h
  obtain ⟨gs, g, errors, -, hafter⟩ := h 128 iniTableCreate (bytes "[s]\n") (.ofBlock (bytes "k")) spacedValue
    (by decide +kernel) (by decide) (by decide +kernel) (by decide +kernel)
    ⟨by decide +kernel, by decide +kernel, by decide +kernel⟩
  have hread : (iniTableReadIn 128 iniTableCreate
      ⟨bytes "[s]\n" ++ entryLine (.ofBlock (bytes "k")) spacedValue, false⟩).toOption.bind
        (fun o => o.sink.table.map IniTable.contents) =
      some ([] ++ [(.ofBlock (bytes "s"), [] ++ [(.ofBlock (bytes "k"), .ofBlock (bytes "a; b"))])]) := by decide +kernel
  have hsame := Option.some.inj (hafter.contents.symm.trans hread)
  obtain ⟨-, hlast⟩ := List.append_inj' hsame (by simp)
  have hentry := (List.append_inj' (Prod.mk.inj (List.cons.inj hlast).1).2 (by simp)).2
  have hvalue : spacedValue = .ofBlock (bytes "a; b") := (Prod.mk.inj (List.cons.inj hentry).1).2
  exact absurd hvalue (by decide +kernel)

end Wrensong.Ini
