import Wrensong.Ini.Lexer
import Wrensong.Lib.Transition

/-!
# The reader and its allocations

`_ini_read` into a table, where every allocation can fail. The table is the one in memory: a section has a name or null, and
an entry array that is null, not set at all, or a block of entries with a key and a value or null. The section array has a
number, new for each `realloc`, and `current_section` names the array it points into.

* `Outcomes`: which allocations of one round of the loop succeed. A round makes each of them once at most;
* `RawOutput`: what has been put out, and `Reading` the state of the reader. Its line is the `Reader` of `readChar`, whose
  output is not used; the newline and `]` call the creators with allocations;
* `Reading.step`: one round. It has no result where the round stores through null, uses a pointer that is not set, leaves
  the line buffer, or where a counter or the capacity of an array leaves the type `int`;
* `readRaw`: the whole reading, with the first `calloc` and the `free` behind the loop.

The error handler returns. `RawOutput.apply` is what an `Event` does, and `step_eq` says that a round does what the event
does that it completes.
-/

namespace Wrensong.Ini

open Wrensong.Lib Wrensong.Lib.Bytes Wrensong.Lib.Transition

/-! ### Tables in memory -/

/-- `ini_entry_s`, where `strdup` may have failed. -/
structure RawEntry where
  key : Option CString
  value : Option CString
  deriving DecidableEq

/-- The pointer `entry` of a section. -/
inductive EntryArray
  | unset
  | null
  | block (entries : GrowArray 10 RawEntry)
  deriving DecidableEq

/-- `ini_section_s`. -/
structure RawSection where
  name : Option CString
  entry : EntryArray
  deriving DecidableEq

/-- The section array of a table. -/
abbrev RawTable := GrowArray 10 RawSection

/-- `current_section`: which section array it points into, and where. -/
structure SectionPointer where
  array : ℕ
  index : ℕ
  deriving DecidableEq

/-! ### Allocations -/

/-- Which allocations of a round succeed. -/
structure Outcomes where
  buffer : Bool
  sections : Bool
  name : Bool
  entries : Bool
  entry : Bool
  key : Bool
  value : Bool
  deriving DecidableEq

/-- All of them. -/
def Outcomes.all : Outcomes := ⟨true, true, true, true, true, true, true⟩

/-- Where an allocation can fail. -/
inductive Site
  | buffer | sections | name | entries | entry | strings
  deriving DecidableEq

/-- What is reported there. -/
def Site.message : Site → List UInt8
  | .buffer => bytes "Failed to allocate memory for ini parsing buffer"
  | .sections => bytes "Failed to allocate memory for ini section"
  | .name => bytes "Failed to allocate memory for ini section name"
  | .entries => bytes "Failed to allocate memory for ini section entries"
  | .entry => bytes "Failed to allocate memory for ini entry"
  | .strings => bytes "Failed to allocate memory for ini entry key/value"

/-- What has been put out so far: the section array and its number, `current_section`, the reports, and where an allocation
has failed. -/
structure RawOutput where
  sections : RawTable
  array : ℕ := 0
  currentSection : Option SectionPointer := none
  reports : List (List UInt8) := []
  failed : List Site := []
  deriving DecidableEq

/-- `_ini_error`. -/
def RawOutput.report (m : RawOutput) (message : List UInt8) : RawOutput := { m with reports := m.reports ++ [message] }

/-- An allocation that fails, with its report. -/
def RawOutput.fails (m : RawOutput) (s : Site) : RawOutput :=
  RawOutput.report { m with failed := m.failed ++ [s] } s.message

/-! ### The creators -/

/-- The section with the index `i` behind `_ini_section_create`. Where `strdup` fails, `entry` is left as it was found: the
first ten sections of a table come from `calloc`, the others from `realloc`. -/
def newSection (i : ℕ) (o : Outcomes) (name : CString) : RawSection :=
  if o.name then ⟨some name, if o.entries then .block (.new 10 RawEntry) else .null⟩
  else ⟨none, if i < 10 then .null else .unset⟩

/-- The entry behind `_ini_entry_create`. -/
def newEntry (o : Outcomes) (key value : CString) : RawEntry :=
  ⟨if o.key then some key else none, if o.value then some value else none⟩

/-- An array can take one more cell: where it is full, its new capacity is an `int`, and the `realloc`, which is `ok` or not,
succeeds. -/
def HasRoom {α : Type} (a : GrowArray 10 α) (ok : Bool) : Prop := a.Grows ∧ (a.cells.length % 10 = 0 → ok = true)

instance {α : Type} (a : GrowArray 10 α) (ok : Bool) : Decidable (HasRoom a ok) := inferInstanceAs (Decidable (_ ∧ _))

/-- The entry array with one more entry. Null and a block that is full are reallocated; where this fails, the new entry is
stored through null. A pointer that is not set cannot be reallocated. -/
def EntryArray.push (a : EntryArray) (o : Outcomes) (e : RawEntry) : Option EntryArray :=
  match a with
  | .unset => none
  | .null =>
    if o.entry then some (.block ((GrowArray.new 10 RawEntry).push growth_pos (GrowArray.new_grows (by decide)) e)) else none
  | .block entries => if h : HasRoom entries o.entry then some (.block (entries.push growth_pos h.1 e)) else none

namespace RawOutput

/-- `current_section = _ini_section_create (..)`. Where the section array cannot be grown, the new section is stored through
null. -/
def createSection (m : RawOutput) (o : Outcomes) (name : CString) : Option RawOutput :=
  if h : HasRoom m.sections o.sections then
    let i := m.sections.cells.length
    let array := if i % 10 = 0 then m.array + 1 else m.array
    let m : RawOutput := { m with
      sections := m.sections.push growth_pos h.1 (newSection i o name), array := array, currentSection := some ⟨array, i⟩ }
    some (if o.name = false then m.fails .name else if o.entries = false then m.fails .entries else m)
  else none

/-- The empty-named section, where there is no current one. -/
def needSection (m : RawOutput) (o : Outcomes) : Option RawOutput :=
  match m.currentSection with
  | none => m.createSection o (.ofBlock [])
  | some _ => some m

/-- The section that a pointer points to. A pointer into an array that was reallocated points to none. -/
def sectionAt (m : RawOutput) (p : SectionPointer) : Option RawSection :=
  if p.array = m.array then m.sections.cells[p.index]? else none

/-- The section with another entry array. -/
def setEntries (m : RawOutput) (i : ℕ) (entry : EntryArray) : RawOutput :=
  { m with sections := m.sections.modify i fun sec => { sec with entry := entry } }

/-- `_ini_entry_create (.., current_section, key, value)`. -/
def createEntry (m : RawOutput) (o : Outcomes) (key value : CString) : Option RawOutput := do
  let p ← m.currentSection
  let sec ← m.sectionAt p
  let entry ← sec.entry.push o (newEntry o key value)
  let m := m.setEntries p.index entry
  pure (if o.key = false ∨ o.value = false then m.fails .strings else m)

end RawOutput

/-! ### The loop -/

/-- The reader in the loop. `broken` says that the loop was left because the line buffer could not be grown. -/
structure Reading where
  line : Reader
  out : RawOutput
  frees : ℕ := 0
  broken : Bool := false
  deriving DecidableEq

namespace Reading

/-- The case of a newline, behind `line++`. -/
def endLine (w : Reading) (o : Outcomes) : Option Reading := do
  match w.line.state with
  | .Value =>
    let out ← w.out.needSection o
    let key ← (stringAt w.line.buf).toOption
    let value ← (stringAt (← w.line.atValue.toOption)).toOption
    let out ← out.createEntry o key value
    pure { w with line := { w.line.clear with value := none }, out := out }
  | .Comment =>
    let out ← w.out.needSection o
    let key ← (stringAt w.line.buf).toOption
    let out ← out.createEntry o key (.ofBlock [])
    pure { w with line := w.line.clear, out := out }
  | .Section =>
    let s ← (stringAt w.line.buf).toOption
    pure { w with line := w.line.clear, out := w.out.report (missingBracket s) }
  | .Key =>
    if w.line.position = 0 then pure { w with line := w.line.clear }
    else
      let s ← (stringAt w.line.buf).toOption
      pure { w with line := w.line.clear, out := w.out.report (missingEquals s) }

/-- The case of a `]`. -/
def closeSection (w : Reading) (o : Outcomes) : Option Reading := do
  let name ← (stringAt w.line.buf).toOption
  let out ← w.out.createSection o name
  pure { w with line := w.line.clear, out := out }

/-- The line buffer has to be grown before the next character is looked at. -/
def NeedsRoom (w : Reading) : Prop := w.line.inComment = false ∧ w.line.buf.length - 2 < w.line.position

instance : DecidablePred NeedsRoom := fun w =>
  inferInstanceAs (Decidable (w.line.inComment = false ∧ w.line.buf.length - 2 < w.line.position))

/-- One round of the loop. A line buffer that cannot be grown is freed, and the loop is left. -/
def step (w : Reading) (a : UInt8 × Outcomes) : Option Reading :=
  if w.broken then some w
  else if w.NeedsRoom ∧ a.2.buffer = false then
    some { w with out := w.out.fails .buffer, frees := w.frees + 1, broken := true }
  else if w.line.inComment = false ∧ a.1 = LF then
    w.line.grow.countLine.toOption.bind fun line => endLine { w with line := line } a.2
  else if w.line.inComment = false ∧ a.1 = RBRACKET then closeSection { w with line := w.line.grow } a.2
  else (readChar none w.line a.1).toOption.map fun r => { w with line := r }

end Reading

/-! ### What the creators do -/

/-- What fails in a section that is created. -/
def sectionFailures (o : Outcomes) : List Site :=
  if o.name = false then [.name] else if o.entries = false then [.entries] else []

/-- What fails in an entry that is created. -/
def entryFailures (o : Outcomes) : List Site := if o.key = false ∨ o.value = false then [.strings] else []

/-- `m'` has the failures `fs` more than `m`, and their reports. -/
def FailsMore (m m' : RawOutput) (fs : List Site) : Prop :=
  m'.failed = m.failed ++ fs ∧ m'.reports = m.reports ++ fs.map Site.message

section Creators

variable {m m' : RawOutput} {o : Outcomes} {name key value : CString}

lemma createSection_isSome (m : RawOutput) (o : Outcomes) (name : CString) :
    (∃ m', m.createSection o name = some m') ↔ HasRoom m.sections o.sections := by
  unfold RawOutput.createSection
  split_ifs with h <;> simp [h]

/-- **A section that is created** stands behind the others and is the current one. -/
lemma createSection_cases (h : m.createSection o name = some m') :
    m'.sections.cells = m.sections.cells ++ [newSection m.sections.cells.length o name] ∧
      m'.currentSection = some ⟨m'.array, m.sections.cells.length⟩ ∧ FailsMore m m' (sectionFailures o) := by
  unfold RawOutput.createSection at h
  unfold sectionFailures FailsMore
  split_ifs at h with hfull hname hentries
  · cases h
    exact ⟨rfl, rfl, by rw [if_pos hname]; exact ⟨rfl, rfl⟩⟩
  · cases h
    exact ⟨rfl, rfl, by rw [if_neg hname, if_pos hentries]; exact ⟨rfl, rfl⟩⟩
  · cases h
    rw [if_neg hname, if_neg hentries]
    exact ⟨rfl, rfl, by simp⟩

/-- **An entry that is created** stands behind the others of the current section. -/
lemma createEntry_cases (h : m.createEntry o key value = some m') :
    ∃ p sec entry, m.currentSection = some p ∧ m.sectionAt p = some sec ∧ sec.entry.push o (newEntry o key value) = some entry ∧
      m'.sections = m.sections.modify p.index (fun sec => { sec with entry := entry }) ∧ m'.array = m.array ∧
      m'.currentSection = some p ∧ FailsMore m m' (entryFailures o) := by
  unfold RawOutput.createEntry at h
  simp only [bind, Option.bind_eq_some_iff, pure, Option.some.injEq] at h
  obtain ⟨p, hp, sec, hsec, entry, hentry, rfl⟩ := h
  refine ⟨p, sec, entry, hp, hsec, hentry, ?_⟩
  unfold entryFailures FailsMore
  split_ifs with hstrings
  · exact ⟨rfl, rfl, hp, rfl, rfl⟩
  · exact ⟨rfl, rfl, hp, by simp [RawOutput.setEntries]⟩

lemma createEntry_isSome {p : SectionPointer} (hp : m.currentSection = some p) (key value : CString) :
    (∃ m', m.createEntry o key value = some m') ↔
      ∃ sec, m.sectionAt p = some sec ∧ ∃ entry, sec.entry.push o (newEntry o key value) = some entry := by
  unfold RawOutput.createEntry
  simp only [hp, bind, Option.bind_some, Option.bind_eq_some_iff, pure, Option.some.injEq]
  constructor
  · rintro ⟨m', sec, hsec, entry, hentry, -⟩
    exact ⟨sec, hsec, entry, hentry⟩
  · rintro ⟨sec, hsec, entry, hentry⟩
    exact ⟨_, sec, hsec, entry, hentry, rfl⟩

end Creators

/-! ### The whole reading -/

/-- What a reading leaves: what it returns, the table, how many line buffers it got and how often it freed one, and what it
reported of what failed. -/
structure RawResult where
  returned : Bool
  sections : RawTable
  buffers : ℕ
  frees : ℕ
  reports : List (List UInt8)
  failed : List Site
  deriving DecidableEq

/-- The reader behind its first `calloc`, with a line buffer of `n` bytes. -/
def Reading.start (n : ℕ) (t : RawTable) : Reading :=
  { line := { buf := List.replicate n NUL, out := { sink := { table := none } } }, out := { sections := t } }

/-- Behind the loop. -/
def Reading.finish (w : Reading) (error : Bool) : RawResult where
  returned := true
  sections := w.out.sections
  buffers := 1
  frees := w.frees + 1
  reports := w.out.reports ++ if error then [bytes "Error reading ini file"] else []
  failed := w.out.failed

/-- `_ini_read` into a table. `first` says whether the line buffer was allocated, and each character comes with the outcomes
of its round. -/
def readRaw (n : ℕ) (t : RawTable) (first : Bool) (rounds : List (UInt8 × Outcomes)) (error : Bool) : Option RawResult :=
  if first then (run Reading.step (.start n t) rounds).map (Reading.finish · error)
  else some ⟨false, t, 0, 0, [Site.buffer.message], [.buffer]⟩

/-! ### What an event does -/

/-- What is put out for an event, in a round with the outcomes `o`. -/
def RawOutput.apply (m : RawOutput) (o : Outcomes) : Event → Option RawOutput
  | .header name => m.createSection o name
  | .entry key value => (m.needSection o).bind fun m => m.createEntry o key value
  | .error message => some (m.report message)

/-- What is put out in a round that completes an event, or none. -/
def RawOutput.applyAny (m : RawOutput) (o : Outcomes) : Option Event → Option RawOutput
  | none => some m
  | some e => m.apply o e

section Step

variable {w : Reading} {l : Lex} {n : ℕ} {o : Outcomes} {c : UInt8}

/-- The newline case on a block with room. -/
lemma endLine_eq (h : Sim w.line l n) (hc : l.inComment = false) (hn : l.text.length < n) :
    ∃ r', Sim r' .lineStart n ∧ r'.line = w.line.line ∧
      w.endLine o = (w.out.applyAny o l.lineEvent).map fun out => { w with line := r', out := out } := by
  have hkey := h.stringAt hn (Nat.zero_le _)
  simp only [List.drop_zero] at hkey
  unfold Reading.endLine Lex.lineEvent
  rw [h.state]
  cases hs : l.state with
  | Value =>
    have hval := h.stringAt hn (h.value hs).2
    refine ⟨_, h.clear hc w.line.out none, rfl, ?_⟩
    simp only [hkey, h.atValue hs, hval, Except.toOption, RawOutput.applyAny, RawOutput.apply, bind, Option.bind_some,
      Function.comp_def, pure, Option.map_eq_bind, Option.bind_assoc]
    rfl
  | Comment =>
    refine ⟨_, h.clear hc w.line.out w.line.value, rfl, ?_⟩
    simp only [hkey, Except.toOption, RawOutput.applyAny, RawOutput.apply, bind, Option.bind_some, Function.comp_def, pure,
      Option.map_eq_bind, Option.bind_assoc]
    rfl
  | Section =>
    refine ⟨_, h.clear hc w.line.out w.line.value, rfl, ?_⟩
    simp only [hkey, Except.toOption, RawOutput.applyAny, RawOutput.apply, bind, Option.bind_some]
    rfl
  | Key =>
    refine ⟨_, h.clear hc w.line.out w.line.value, rfl, ?_⟩
    simp only [h.position, List.length_eq_zero_iff]
    by_cases ht : l.text = []
    · simp only [ht, if_true, RawOutput.applyAny]
      rfl
    · simp only [ht, if_false, hkey, Except.toOption, RawOutput.applyAny, RawOutput.apply, bind, Option.bind_some]
      rfl

/-- The `]` case on a block with room. -/
lemma closeSection_eq (h : Sim w.line l n) (hc : l.inComment = false) (hn : l.text.length < n) :
    ∃ r', Sim r' .lineStart n ∧ r'.line = w.line.line ∧
      w.closeSection o = (w.out.createSection o (.ofBlock l.text)).map fun out => { w with line := r', out := out } := by
  have hkey := h.stringAt hn (Nat.zero_le _)
  simp only [List.drop_zero] at hkey
  refine ⟨_, h.clear hc w.line.out w.line.value, rfl, ?_⟩
  unfold Reading.closeSection
  simp only [hkey, Except.toOption, bind, Option.bind_some, pure, Option.map_eq_bind]
  rfl

lemma ends_fit (hc : l.inComment = false) (hend : c = LF ∨ c = RBRACKET) : (l.next c).text.length ≤ l.room n := by
  rcases hend with rfl | rfl
  · rw [(next_lineEnd hc).1]
    exact Nat.zero_le _
  · rw [(next_headerEnd hc).1]
    exact Nat.zero_le _

/-- A character that completes no event puts nothing out. -/
lemma readChar_of_none {r : Reader} (h : Sim r l n) (hfit : (l.next c).text.length ≤ l.room n) (hsmall : (l.next c).Small)
    (hline : r.line + [c].count LF ≤ INT_MAX) (hevent : l.event c = none) :
    ∃ r', readChar none r c = .ok r' ∧ Sim r' (l.next c) (l.room n) ∧ r'.line ≤ r.line + [c].count LF := by
  have hnothing : r.out.applyAll none (l.event c).toList = .ok r.out := by rw [hevent]; rfl
  obtain ⟨r', hr, hsim, -, hkept⟩ := readChar_fits h hfit hsmall hline hnothing
  exact ⟨r', hr, hsim, hkept⟩

/-- **A round whose character fits** does what the event does that it completes. -/
theorem step_eq (h : Sim w.line l n) (hb : w.broken = false) (hroom : ¬ (w.NeedsRoom ∧ o.buffer = false))
    (hfit : (l.next c).text.length ≤ l.room n) (hsmall : (l.next c).Small) (hline : w.line.line + [c].count LF ≤ INT_MAX) :
    ∃ r', Sim r' (l.next c) (l.room n) ∧ r'.line ≤ w.line.line + [c].count LF ∧
      w.step (c, o) = (w.out.applyAny o (l.event c)).map fun out => { w with line := r', out := out } := by
  unfold Reading.step
  rw [if_neg (by simp [hb]), if_neg hroom]
  by_cases hc : l.inComment = false
  · obtain ⟨hg, ⟨-, hgrow⟩, hlt⟩ := h.grow hc
    have hin : w.line.inComment = false := h.inComment.trans hc
    by_cases hlf : c = LF
    · rw [if_pos ⟨hin, hlf⟩]
      have hone : [c].count LF = 1 := by rw [hlf]; rfl
      obtain ⟨r1, h1, hs, -, hl1⟩ := hg.countLine (by omega)
      rw [h1, hlf, (next_lineEnd hc).1, (next_lineEnd hc).2]
      obtain ⟨r', hr, hl', heq⟩ := endLine_eq (w := { w with line := r1 }) hs hc hlt
      exact ⟨r', hr, by rw [hlf] at hone; dsimp only at hl'; omega, heq⟩
    rw [if_neg fun e => hlf e.2]
    by_cases hrb : c = RBRACKET
    · rw [if_pos ⟨hin, hrb⟩, hrb, (next_headerEnd hc).1, (next_headerEnd hc).2]
      obtain ⟨r', hr, hl', heq⟩ := closeSection_eq (w := { w with line := w.line.grow }) hg hc hlt
      exact ⟨r', hr, by dsimp only at hl'; omega, heq⟩
    have hevent := event_eq_none hc hlf hrb
    obtain ⟨r', hr, hsim, hkept⟩ := readChar_of_none h hfit hsmall hline hevent
    rw [if_neg fun e => hrb e.2, hr, hevent]
    exact ⟨r', hsim, hkept, rfl⟩
  · have hevent : l.event c = none := by rw [Lex.event, if_pos (by simpa using hc)]
    obtain ⟨r', hr, hsim, hkept⟩ := readChar_of_none h hfit hsmall hline hevent
    rw [if_neg fun e => hc (h.inComment.symm.trans e.1), if_neg fun e => hc (h.inComment.symm.trans e.1), hr, hevent]
    exact ⟨r', hsim, hkept, rfl⟩

/-- A round whose character does not fit leaves the line buffer. -/
lemma step_over (h : Sim w.line l n) (hb : w.broken = false) (hroom : ¬ (w.NeedsRoom ∧ o.buffer = false))
    (hover : ¬ (l.next c).text.length ≤ l.room n) (hsmall : (l.next c).Small) : w.step (c, o) = none := by
  have hends : ¬ (w.line.inComment = false ∧ (c = LF ∨ c = RBRACKET)) := fun e =>
    hover (ends_fit (h.inComment.symm.trans e.1) e.2)
  unfold Reading.step
  rw [if_neg (by simp [hb]), if_neg hroom, if_neg fun e => hends ⟨e.1, Or.inl e.2⟩, if_neg fun e => hends ⟨e.1, Or.inr e.2⟩,
    readChar_over h hover hsmall]
  rfl

end Step

end Wrensong.Ini
