import Wrensong.Ini.Lexer

/-!
# Which texts stay inside the line buffer

The room in the block is checked once for each character of the outer loop. The inner loop of a comment stores without a
check, and the spaces that were put off are stored all at once: these are the characters that `Overflows` describes.
`bufferSafe_iff` says that nothing else can go wrong as long as the counters stay in their types: the readings of a text, in
whatever mode, keep their stores and their strings inside the block exactly if there is no such character.

The modes differ in what is put out, and there a null table and an array that is too large are the only faults
(`apply_fault`). So a reading of a text that fits can stop at such a fault only (`foldl_fault`).
-/

namespace Wrensong.Ini

open Wrensong.Lib Wrensong.Lib.Bytes

/-- A fault of the output, which leaves the line buffer alone: a null table, or an array that cannot be grown any more. -/
def IniFault.OfOutput (f : IniFault) : Prop := f = .nullPointer ∨ f = .tooLarge

instance : DecidablePred IniFault.OfOutput := fun _ => inferInstanceAs (Decidable (_ ∨ _))

/-- No reading of the text goes wrong on the line buffer: for a table or for a callback, it completes, or it stops at a fault
of its output. -/
def BufferSafe (data : List UInt8) : Prop :=
  ∀ (error : Bool) (call : Option IniCallback) (table : Option IniTable) (f : IniFault),
    readIni ⟨data, error⟩ call table = .error f → f.OfOutput

/-! ### What can stop the output -/

section Output

variable {call : Option IniCallback} {o : Output} {f : IniFault}

lemma createSection_fault {name : CString} (h : o.createSection call name = .error f) : f.OfOutput := by
  unfold Output.createSection iniSectionCreate at h
  split_ifs at h
  · cases h
  cases ht : o.sink.table with
  | none =>
    rw [ht] at h
    cases h
    exact Or.inl rfl
  | some t =>
    cases hp : t.pushSection name with
    | none =>
      simp only [ht, hp] at h
      cases h
      exact Or.inr rfl
    | some t' =>
      simp only [ht, hp] at h
      cases h

lemma createEntry_fault {key value : CString} (h : o.createEntry call key value = .error f) : f.OfOutput := by
  unfold Output.createEntry iniEntryCreate at h
  split_ifs at h
  · cases h
  cases ht : o.sink.table with
  | none =>
    simp only [ht] at h
    cases h
    exact Or.inl rfl
  | some t =>
    cases hi : o.currentSection with
    | none =>
      simp only [ht, hi] at h
      cases h
      exact Or.inl rfl
    | some i =>
      cases hp : t.pushEntry i key value with
      | none =>
        simp only [ht, hi, hp] at h
        cases h
        exact Or.inr rfl
      | some t' =>
        simp only [ht, hi, hp] at h
        cases h

lemma needSection_fault (h : o.needSection call = .error f) : f.OfOutput := by
  unfold Output.needSection at h
  split at h
  · exact createSection_fault h
  · cases h

lemma apply_fault {e : Event} (h : o.apply call e = .error f) : f.OfOutput := by
  cases e with
  | header name => exact createSection_fault h
  | entry key value =>
    cases hneed : o.needSection call with
    | error f' =>
      simp only [Output.apply, hneed, bind, Except.bind] at h
      cases h
      exact needSection_fault hneed
    | ok o' =>
      simp only [Output.apply, hneed, bind, Except.bind] at h
      exact createEntry_fault h
  | error message => cases h

end Output

/-! ### A character that fits -/

section ReadChar

variable {r : Reader} {l : Lex} {n : ℕ} {c : UInt8} {call : Option IniCallback} {f : IniFault}

/-- The newline case, where its event cannot be put out. -/
lemma Sim.endLine_fault (h : Sim r l n) (hn : l.text.length < n)
    (ho : r.out.applyAll call l.lineEvent.toList = .error f) : r.endLine call = .error f := by
  have hkey := h.stringAt hn (Nat.zero_le _)
  simp only [List.drop_zero] at hkey
  unfold Reader.endLine
  unfold Lex.lineEvent at ho
  rw [h.state]
  cases hs : l.state with
  | Value =>
    have hval := h.stringAt hn (h.value hs).2
    simp only [hs, Option.toList, Output.applyAll, List.foldlM_cons, List.foldlM_nil, Output.apply, bind_pure] at ho
    cases hneed : r.out.needSection call with
    | error e => simpa [hneed, bind, Except.bind] using ho
    | ok o1 =>
      simp only [hneed, bind, Except.bind] at ho
      simp only [bind, Except.bind, hkey, h.atValue hs, hval, ho]
  | Comment =>
    simp only [hs, Option.toList, Output.applyAll, List.foldlM_cons, List.foldlM_nil, Output.apply, bind_pure] at ho
    cases hneed : r.out.needSection call with
    | error e => simpa [hneed, bind, Except.bind] using ho
    | ok o1 =>
      simp only [hneed, bind, Except.bind] at ho
      simp only [bind, Except.bind, hkey, ho]
  | Section =>
    simp only [hs, Option.toList, Output.applyAll, List.foldlM_cons, List.foldlM_nil, Output.apply, bind_pure] at ho
    cases ho
  | Key =>
    by_cases ht : l.text = []
    · simp only [hs, ht, if_true, Option.toList, Output.applyAll, List.foldlM_nil] at ho
      cases ho
    · simp only [hs, ht, if_false, Option.toList, Output.applyAll, List.foldlM_cons, List.foldlM_nil, Output.apply,
        bind_pure] at ho
      cases ho

/-- **A character that fits**, where its event cannot be put out: the reader stops there. -/
lemma readChar_fault (h : Sim r l n) (hline : r.line + [c].count LF ≤ INT_MAX)
    (ho : r.out.applyAll call (l.event c).toList = .error f) : readChar call r c = .error f := by
  unfold Lex.event at ho
  split_ifs at ho with hc hlf hrb
  · cases ho
  · subst hlf
    obtain ⟨hg, ⟨hout, hgrow⟩, hlt⟩ := h.grow (by simpa using hc)
    obtain ⟨r', h1, hs, hout', -⟩ := hg.countLine (by rw [hgrow]; exact hline)
    have hend := hs.endLine_fault hlt (by rw [hout', hout]; exact ho)
    rw [readChar, if_neg (by rw [h.inComment]; exact hc)]
    change (do
      let r ← r.grow.countLine
      r.endLine call : Except IniFault Reader) = .error f
    simp only [h1, bind, Except.bind, hend]
  · subst hrb
    obtain ⟨hg, ⟨hout, -⟩, hlt⟩ := h.grow (by simpa using hc)
    have hkey := hg.stringAt hlt (Nat.zero_le _)
    rw [List.drop_zero, List.drop_zero] at hkey
    rw [← hout] at ho
    rw [readChar, if_neg (by rw [h.inComment]; exact hc)]
    have ho' : r.grow.out.createSection call (.ofBlock l.text) = .error f := by
      simpa [Option.toList, Output.applyAll, Output.apply] using ho
    change (do
      let name ← Ini.stringAt r.grow.buf
      let out ← r.grow.out.createSection call name
      pure { r.grow.clear with out := out } : Except IniFault Reader) = .error f
    simp only [bind, Except.bind, hkey, ho']
  · cases ho

end ReadChar

/-! ### Whole texts -/

/-- **A reading of a text that fits** stops at a fault of its output or not at all. -/
lemma foldl_fault {call : Option IniCallback} {f : IniFault} (s : List UInt8) {r : Reader} {l : Lex} {n : ℕ}
    (h : Sim r l n) (hfit : l.Fits n s) (hcount : l.Counted s) (hline : r.line + s.count LF ≤ INT_MAX)
    (hf : s.foldlM (readChar call) r = .error f) : f.OfOutput := by
  induction s generalizing r l n with
  | nil => cases hf
  | cons c s ih =>
    obtain ⟨hc, hs⟩ := hfit
    obtain ⟨hsmall, hcount⟩ := hcount
    rw [← List.singleton_append, List.count_append] at hline
    rw [List.foldlM_cons] at hf
    cases ho : r.out.applyAll call (l.event c).toList with
    | error f' =>
      simp only [readChar_fault h (by omega) ho, bind, Except.bind] at hf
      cases hf
      cases he : l.event c with
      | none =>
        rw [he] at ho
        cases ho
      | some e =>
        rw [he] at ho
        exact apply_fault (by simpa [Option.toList, Output.applyAll] using ho)
    | ok o =>
      obtain ⟨r1, h1, h2, -, h3⟩ := readChar_fits h hc hsmall (by omega) ho
      simp only [h1, bind, Except.bind] at hf
      exact ih h2 hs hcount (by omega) hf

/-! ### The stores without a check -/

/-- The character goes behind the spaces that were put off. -/
def Plain (l : Lex) (c : UInt8) : Prop :=
  c ≠ SP ∧ c ≠ SEMICOLON ∧ c ≠ HASH ∧ c ≠ CR ∧ c ≠ LF ∧ c ≠ LBRACKET ∧ c ≠ RBRACKET ∧
    (c = EQUALS ∨ c = COLON → l.state ≠ .Key)

/-- The character stands in a comment that fills the block of size `n`, or more spaces were put off in front of it than
there is room for. -/
inductive Overflows (l : Lex) (n : ℕ) (c : UInt8) : Prop
  | comment (inComment : l.inComment = true) (hlf : c ≠ LF) (full : n ≤ l.text.length)
  | spaces (inComment : l.inComment = false) (plain : Plain l c) (full : l.room n ≤ l.text.length + l.spaces)

/-- No character of the text overflows the block. -/
def Roomy (data : List UInt8) : Prop :=
  ∀ p c s, data = p ++ c :: s → ¬ Overflows (Lex.after {} p) (Lex.roomAfter {} 128 p) c

section Overflows

variable {l : Lex} {n : ℕ} {c : UInt8} {s : List UInt8}

/-- Outside a comment the block is not full when the character is stored. -/
lemma length_lt_room (hl : l.inComment = false) (hn : l.text.length ≤ n) (h128 : 128 ≤ n) : l.text.length < l.room n := by
  unfold Lex.room
  split_ifs with h
  · omega
  · have : ¬ n - 2 < l.text.length := fun hlt => h ⟨hl, hlt⟩
    omega

/-- **One character.** The branches that store one byte behind the check are safe. -/
lemma length_next_le_iff (hn : l.text.length ≤ n) (h128 : 128 ≤ n) :
    (l.next c).text.length ≤ l.room n ↔ ¬ Overflows l n c := by
  rcases hl : l.inComment with _ | _
  · have hlt := length_lt_room hl hn h128
    have ht := turn hl c
    generalize l.next c = m at ht ⊢
    generalize l.event c = e at ht
    have hsafe : ¬ Plain l c → m.text.length ≤ l.room n → (m.text.length ≤ l.room n ↔ ¬ Overflows l n c) := by
      intro hp hle
      refine iff_of_true hle fun ho => ?_
      cases ho with
      | comment inComment hlf full => exact absurd (hl.symm.trans inComment) (by decide)
      | spaces inComment plain full => exact hp plain
    cases ht with
    | lead hs => exact hsafe (fun hp => hp.1 rfl) hlt.le
    | space hs => exact hsafe (fun hp => hp.1 rfl) hlt.le
    | mark hc hv => exact hsafe (fun hp => hc.elim hp.2.1 hp.2.2.1) (by simpa using hlt)
    | markValue hc hv => exact hsafe (fun hp => hc.elim hp.2.1 hp.2.2.1) (by simpa using hlt)
    | carriage => exact hsafe (fun hp => hp.2.2.2.1 rfl) hlt.le
    | lineEnd => exact hsafe (fun hp => hp.2.2.2.2.1 rfl) (Nat.zero_le _)
    | openBracket => exact hsafe (fun hp => hp.2.2.2.2.2.1 rfl) hlt.le
    | headerEnd => exact hsafe (fun hp => hp.2.2.2.2.2.2.1 rfl) (Nat.zero_le _)
    | equals hc hk => exact hsafe (fun hp => hp.2.2.2.2.2.2.2 hc hk) (by simpa using hlt)
    | put hsp hm hcr hlf hlb hrb heq =>
      obtain ⟨hsemi, hhash⟩ := not_or.1 hm
      have hplain : Plain l c := ⟨hsp, hsemi, hhash, hcr, hlf, hlb, hrb, fun e hk => heq ⟨e, hk⟩⟩
      simp only [Lex.put, List.length_append, List.length_replicate, List.length_singleton]
      constructor
      · intro hle ho
        cases ho with
        | comment inComment hlf full => exact absurd (hl.symm.trans inComment) (by decide)
        | spaces inComment plain full => omega
      · intro ho
        by_contra hle
        exact ho (.spaces hl hplain (by omega))
  · have hroom : l.room n = n := by simp [Lex.room, hl]
    rw [hroom, Lex.next, if_pos hl]
    constructor
    · intro hle ho
      cases ho with
      | comment inComment hlf full =>
        rw [if_neg hlf, List.length_append, List.length_singleton] at hle
        omega
      | spaces inComment plain full => exact absurd (hl.symm.trans inComment) (by decide)
    · intro ho
      by_cases hlf : c = LF
      · rw [if_pos hlf]
        exact hn
      · rw [if_neg hlf, List.length_append, List.length_singleton]
        by_contra hle
        exact ho (.comment hl hlf (by omega))

/-- **A text that fits**, by its characters. -/
lemma fits_iff_overflows (hn : l.text.length ≤ n) (h128 : 128 ≤ n) :
    l.Fits n s ↔ ∀ p c s', s = p ++ c :: s' → ¬ Overflows (l.after p) (l.roomAfter n p) c := by
  induction s generalizing l n with
  | nil => simp [Lex.Fits]
  | cons c s ih =>
    have hroom : 128 ≤ l.room n := h128.trans (le_room n)
    constructor
    · rintro ⟨hc, hs⟩ p c' s' heq
      cases p with
      | nil =>
        obtain ⟨rfl, rfl⟩ := List.cons.inj heq
        exact (length_next_le_iff hn h128).1 hc
      | cons b p =>
        obtain ⟨rfl, rfl⟩ := List.cons.inj heq
        exact (ih hc hroom).1 hs p c' s' rfl
    · intro h
      have hc := (length_next_le_iff hn h128).2 (h [] c s rfl)
      exact ⟨hc, (ih hc hroom).2 fun p c' s' heq => h (c :: p) c' s' (by rw [heq]; rfl)⟩

end Overflows

/-- **When the line buffer is not overrun.** In every mode of reading, no byte is stored outside the block and each
string taken from it ends inside, exactly if no comment goes on in a full block and there is room for the spaces that were
put off. -/
theorem bufferSafe_iff {data : List UInt8} (hcount : Counted data) : BufferSafe data ↔ Roomy data := by
  have hroomy : FitsBuffer data ↔ Roomy data := fits_iff_overflows (l := {}) (Nat.zero_le _) le_rfl
  rw [← hroomy]
  constructor
  · intro h
    by_contra hfit
    have hover := (iniRead_eq (show Counted (IniIn.mk data false).data from hcount)).2 hfit
    exact absurd (h false (some ⟨true, true⟩) none .overrun hover) (by decide)
  · intro hfit error call table f hf
    cases hread : data.foldlM (readChar call) { out := { sink := { table := table } } } with
    | error f' =>
      simp only [readIni, hread, bind, Except.bind] at hf
      cases hf
      exact foldl_fault data (sim_start le_rfl _) hfit hcount.1 (by simpa using hcount.2) hread
    | ok r =>
      simp only [readIni, hread, bind, Except.bind] at hf
      cases hf

/-- A comment behind a section, with spaces in it. -/
theorem bufferSafe_comment : BufferSafe (bytes "[a]\n; k  v\n") :=
  (bufferSafe_iff (by decide +kernel)).2 ((fits_iff_overflows (Nat.zero_le _) le_rfl).1 (show FitsBuffer _ by decide +kernel))

/-- A comment of 129 bytes: the inner loop stores the last one behind the block. -/
theorem not_bufferSafe : ¬ ∀ data : List UInt8, BufferSafe data := by
  intro h
  have hlong : ¬ FitsBuffer (SEMICOLON :: List.replicate 128 120) := by decide +kernel
  have hcount : Counted (IniIn.mk (SEMICOLON :: List.replicate 128 120) false).data := by decide +kernel
  have hover := (iniRead_eq hcount).2 hlong
  exact absurd (h _ false (some ⟨true, true⟩) none .overrun hover) (by decide)

end Wrensong.Ini
