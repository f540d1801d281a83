import Wrensong.Ini.Alloc
import Wrensong.Ini.Ample

/-!
# A reading only appends

A reading in which all allocations succeed and the line buffer has room for the text. Behind the sections that were in the
table it puts those of the text (`run_appended`): `current_section` is set anew whenever a section is created, and so it
always points to the last one in the array as it is by then (`Appended.current`). The same text read into an empty table
gives the same sections. All this goes well exactly if the arrays have room for what is appended (`onlyAppends_iff`); the
capacity of an array with 2147483641 cells is no `int`.

`readRaw_refines` says that such a reading does what the one of `iniTableReadIn` does, which has no allocations.
-/

namespace Wrensong.Ini

open Wrensong.Lib Wrensong.Lib.Bytes Wrensong.Lib.Transition

/-- The rounds of a text in which all allocations succeed. -/
def succeeding (s : List UInt8) : List (UInt8 × Outcomes) := s.map fun c => (c, .all)

/-- A key and a value in memory. -/
def rawEntry (e : CString × CString) : RawEntry := ⟨some e.1, some e.2⟩

/-- The entry array of a section that was created in a reading, with as many of the entries as an array can have. -/
def rawEntries (es : List (CString × CString)) : GrowArray 10 RawEntry :=
  es.foldl (fun a e => if h : a.Grows then a.push growth_pos h (rawEntry e) else a) (.new 10 RawEntry)

/-- The section of a group. -/
def rawSection (g : Group) : RawSection := ⟨some g.1, .block (rawEntries g.2)⟩

/-- The section has the name and the entries of the group. -/
def RawSection.Holds (sec : RawSection) (g : Group) : Prop :=
  sec.name = some g.1 ∧ ∃ es, sec.entry = .block es ∧ es.cells = g.2.map rawEntry

/-- Behind the sections of `t` stand those of the groups `gs`, and the current section is the last of them. -/
structure Appended (t : RawTable) (gs : List Group) (m : RawOutput) : Prop where
  sections : m.sections.cells = t.cells ++ gs.map rawSection
  current : m.currentSection = if gs = [] then none else some ⟨m.array, t.cells.length + gs.length - 1⟩

/-- A reading of `x` into `t` puts the sections of `x` behind those of `t`: they have the names and the entries of the groups
of `x`, and they are those that the reading into an empty table gives. At each place of the text the sections created so
far are the groups of what was read, where each entry goes to the last group (`addEvent`), and the current section is the
last one. -/
structure OnlyAppends (n : ℕ) (t : RawTable) (x : List UInt8) (error : Bool) : Prop where
  sections : ∃ r, readRaw n t true (succeeding x) error = some r ∧
    r.sections.cells = t.cells ++ (groups (events x)).map rawSection
  holds : ∀ g ∈ groups (events x), (rawSection g).Holds g
  frame : ∃ r r₀, readRaw n t true (succeeding x) error = some r ∧
    readRaw n (.new 10 RawSection) true (succeeding x) error = some r₀ ∧
    r.sections.cells = t.cells ++ r₀.sections.cells ∧ r.reports = r₀.reports
  last : ∀ s, s <+: x → ∃ w, run Reading.step (.start n t) (succeeding s) = some w ∧ Appended t (groups (events s)) w.out

/-! ### Entry arrays -/

section Entries

variable {es : List (CString × CString)} {g : Group}

lemma rawEntries_concat (es : List (CString × CString)) (e : CString × CString) :
    rawEntries (es ++ [e]) =
      if h : (rawEntries es).Grows then (rawEntries es).push growth_pos h (rawEntry e) else rawEntries es := by
  unfold rawEntries
  rw [List.foldl_append]
  rfl

/-- **An entry array holds all entries** that it has room for. -/
lemma cells_rawEntries (h : es.length ≤ 2147483640) : (rawEntries es).cells = es.map rawEntry := by
  induction es using List.reverseRecOn with
  | nil => rfl
  | append_singleton es e ih =>
    rw [List.length_append, List.length_singleton] at h
    have hcells := ih (by omega)
    have hgrows : (rawEntries es).Grows := by
      rw [GrowArray.grows_iff _ growth_pos, GrowArray.maxSize_ten, hcells, List.length_map]
      omega
    rw [rawEntries_concat, dif_pos hgrows, GrowArray.cells_push, hcells, List.map_append, List.map_singleton]

lemma holds_rawSection (h : g.2.length ≤ 2147483640) : (rawSection g).Holds g := ⟨rfl, _, rfl, cells_rawEntries h⟩

lemma length_of_holds {sec : RawSection} (h : sec.Holds g) : g.2.length ≤ 2147483640 := by
  obtain ⟨-, es, -, hes⟩ := h
  rw [← List.length_map, ← hes]
  exact es.size_le

end Entries

/-! ### Events -/

section Appended

variable {t : RawTable} {gs : List Group} {m m' : RawOutput}

/-- A section that is created, in a round without failures. -/
lemma Appended.createSection (h : Appended t gs m) (hroom : t.cells.length + gs.length < 2147483640) (name : CString) :
    ∃ m', m.createSection .all name = some m' ∧ Appended t (gs ++ [(name, [])]) m' ∧ m'.reports = m.reports := by
  have hgrows : m.sections.Grows := by
    rw [GrowArray.grows_iff _ growth_pos, GrowArray.maxSize_ten, h.sections, List.length_append, List.length_map]
    exact hroom
  obtain ⟨m', hm⟩ := (createSection_isSome m .all name).2 ⟨hgrows, fun _ => rfl⟩
  obtain ⟨hsec, hcur, hfail⟩ := createSection_cases hm
  refine ⟨m', hm, ⟨?_, ?_⟩, by simpa [sectionFailures, Outcomes.all] using hfail.2⟩
  · rw [hsec, h.sections, List.append_assoc, List.map_append]
    rfl
  · rw [hcur, if_neg (by simp), h.sections]
    simp

/-- An entry that is created goes to the last section. -/
lemma Appended.createEntry {g : Group} (h : Appended t (gs ++ [g]) m) (hroom : g.2.length < 2147483640)
    (key value : CString) :
    ∃ m', m.createEntry .all key value = some m' ∧ Appended t (gs ++ [(g.1, g.2 ++ [(key, value)])]) m' ∧
      m'.reports = m.reports := by
  have hcells : m.sections.cells = (t.cells ++ gs.map rawSection) ++ [rawSection g] := by
    rw [h.sections, List.map_append, List.append_assoc]
    rfl
  have hcur : m.currentSection = some ⟨m.array, (t.cells ++ gs.map rawSection).length⟩ := by
    rw [h.current, if_neg (by simp)]
    simp only [List.length_append, List.length_map, List.length_singleton, Option.some.injEq, SectionPointer.mk.injEq,
      true_and]
    omega
  have hat : m.sectionAt ⟨m.array, (t.cells ++ gs.map rawSection).length⟩ = some (rawSection g) := by
    rw [RawOutput.sectionAt, if_pos rfl, hcells, List.getElem?_concat_length]
  have hgrows : (rawEntries g.2).Grows := by
    rw [GrowArray.grows_iff _ growth_pos, GrowArray.maxSize_ten, cells_rawEntries hroom.le, List.length_map]
    exact hroom
  have hpush : (rawSection g).entry.push .all (newEntry .all key value) =
      some (rawSection (g.1, g.2 ++ [(key, value)])).entry := by
    simp only [rawSection, rawEntries_concat, EntryArray.push, dif_pos hgrows]
    rw [dif_pos ⟨hgrows, fun _ => rfl⟩]
    rfl
  obtain ⟨m', hm⟩ := (createEntry_isSome hcur key value).2 ⟨_, hat, _, hpush⟩
  obtain ⟨p, sec, entry, hp, hsec, hentry, hsections, harray, hcur', hfail⟩ := createEntry_cases hm
  obtain rfl := Option.some.inj (hcur.symm.trans hp)
  obtain rfl := Option.some.inj (hat.symm.trans hsec)
  obtain rfl := Option.some.inj (hpush.symm.trans hentry)
  refine ⟨m', hm, ⟨?_, ?_⟩, by simpa [entryFailures, Outcomes.all] using hfail.2⟩
  · rw [hsections, GrowArray.cells_modify, hcells, GrowArray.modify_append_cons, List.map_append, List.append_assoc]
    rfl
  · rw [hcur', harray, if_neg (by simp)]
    simp only [List.length_append, List.length_map, List.length_singleton, Option.some.injEq, SectionPointer.mk.injEq,
      true_and]
    omega

/-- **One event.** -/
lemma Appended.apply (h : Appended t gs m) {e : Event} (hsized : Sized t.cells.length (addEvent gs e)) :
    ∃ m', m.apply .all e = some m' ∧ Appended t (addEvent gs e) m' ∧ m'.reports = m.reports ++ messages [e] := by
  cases e with
  | header name =>
    have hlen := hsized.1
    simp only [addEvent, List.length_append, List.length_singleton] at hlen
    obtain ⟨m', h1, h2, h3⟩ := h.createSection (by omega) name
    exact ⟨m', h1, h2, by simp [h3, messages]⟩
  | entry key value =>
    rcases List.eq_nil_or_concat' gs with rfl | ⟨gs, g, rfl⟩
    · have hlen := hsized.1
      simp only [addEvent, addEntry, List.length_singleton] at hlen
      obtain ⟨m1, h1, h2, h3⟩ := h.createSection (show t.cells.length + 0 < 2147483640 by omega) (.ofBlock [])
      obtain ⟨m', h4, h5, h6⟩ := h2.createEntry (show 0 < 2147483640 by decide) key value
      refine ⟨m', ?_, h5, by simp [h3, h6, messages]⟩
      have hneed : m.needSection .all = some m1 := by rw [RawOutput.needSection, h.current, if_pos rfl, h1]
      rw [RawOutput.apply, hneed, Option.bind_some, h4]
    · rw [addEvent, addEntry_concat] at hsized ⊢
      have hlast := hsized.2 _ (List.mem_append_right _ (List.mem_singleton_self _))
      simp only [List.length_append, List.length_singleton] at hlast
      obtain ⟨m', h4, h5, h6⟩ := h.createEntry (by omega) key value
      refine ⟨m', ?_, h5, by simp [h6, messages]⟩
      have hneed : m.needSection .all = some m := by rw [RawOutput.needSection, h.current, if_neg (by simp)]
      rw [RawOutput.apply, hneed, Option.bind_some, h4]
  | error message => exact ⟨m.report message, rfl, ⟨h.sections, h.current⟩, by simp [RawOutput.report, messages]⟩

end Appended

/-! ### Readings -/

section Run

variable {t : RawTable} {gs : List Group} {w : Reading} {l : Lex} {n : ℕ} {s x : List UInt8} {error : Bool}

/-- **A text behind any state of the reader.** -/
theorem run_appended (h : Sim w.line l n) (hb : w.broken = false) (happ : Appended t gs w.out) (hfit : l.Fits n s)
    (hcount : l.Counted s) (hline : w.line.line + s.count LF ≤ INT_MAX)
    (hsized : Sized t.cells.length ((l.events s).foldl addEvent gs)) :
    ∃ w', run Reading.step w (succeeding s) = some w' ∧ Appended t ((l.events s).foldl addEvent gs) w'.out ∧
      w'.out.reports = w.out.reports ++ messages (l.events s) := by
  induction s generalizing w l n gs with
  | nil => exact ⟨w, rfl, happ, by simp [Lex.events, messages]⟩
  | cons c s ih =>
    obtain ⟨hc, hs⟩ := hfit
    obtain ⟨hsmall, hcount⟩ := hcount
    rw [← List.singleton_append, List.count_append] at hline
    rw [Lex.events, List.foldl_append] at hsized
    obtain ⟨r', hsim, hkept, hstep⟩ := step_eq (o := .all) h hb (by simp [Outcomes.all]) hc hsmall (by omega)
    obtain ⟨m', hm, happ', hrep⟩ : ∃ m', w.out.applyAny .all (l.event c) = some m' ∧
        Appended t ((l.event c).toList.foldl addEvent gs) m' ∧ m'.reports = w.out.reports ++ messages (l.event c).toList := by
      cases he : l.event c with
      | none => exact ⟨w.out, rfl, happ, by simp [messages]⟩
      | some e =>
        rw [he] at hsized
        exact happ.apply hsized.of_foldl
    rw [hm, Option.map_some] at hstep
    obtain ⟨w', hr, happ'', hrep'⟩ :=
      ih (w := { w with line := r', out := m' }) hsim hb happ' hs hcount (by dsimp only; omega) hsized
    refine ⟨w', ?_, ?_, ?_⟩
    · rw [succeeding, List.map_cons, run_cons hstep]
      exact hr
    · rwa [Lex.events, List.foldl_append]
    · rw [Lex.events, messages_append, ← List.append_assoc, ← hrep, hrep']

lemma run_start (hn : Ample n s) (hin : InRange t.cells.length s) :
    ∃ w, run Reading.step (.start n t) (succeeding s) = some w ∧ Appended t (groups (events s)) w.out ∧
      w.out.reports = messages (events s) := by
  have hstart : Appended t [] (Reading.start n t).out := ⟨by simp [Reading.start], rfl⟩
  obtain ⟨w, hr, happ, hrep⟩ := run_appended (sim_start hn.1 _) rfl hstart hn.fits hin.1.1
    (by simpa [Reading.start] using hin.1.2) hin.2
  exact ⟨w, hr, happ, hrep⟩

/-- What a reading leaves. -/
lemma readRaw_eq (hn : Ample n x) (hin : InRange t.cells.length x) (error : Bool) :
    ∃ r, readRaw n t true (succeeding x) error = some r ∧
      r.sections.cells = t.cells ++ (groups (events x)).map rawSection ∧
      r.reports = messages (events x) ++ streamErrors ⟨x, error⟩ := by
  obtain ⟨w, hr, happ, hrep⟩ := run_start hn hin
  refine ⟨w.finish error, by rw [readRaw, if_pos rfl, hr, Option.map_some], happ.sections, ?_⟩
  rw [Reading.finish, hrep]
  rfl

/-- **The reading without allocations.** Where the two tables have the same sections before, they have the same ones behind
it, and the reports are the same. -/
theorem readRaw_refines {t : IniTable} {t' : RawTable} (hn : Ample n x) (hin : InRange t.sections.cells.length x)
    (error : Bool) (ht : t'.cells = t.contents.map rawSection) :
    ∃ r o u, readRaw n t' true (succeeding x) error = some r ∧ iniTableReadIn n t ⟨x, error⟩ = .ok o ∧
      o.sink.table = some u ∧ r.sections.cells = u.contents.map rawSection ∧ r.reports = o.errors := by
  have hlen : t'.cells.length = t.sections.cells.length := by rw [ht, List.length_map, contents_length]
  obtain ⟨r, hr, hsections, hreports⟩ := readRaw_eq (t := t') hn (by rwa [hlen]) error
  obtain ⟨o, u, ho, hu, hcontents, herrors⟩ :=
    iniTableReadIn_eq hn.1 (show Lex.Fits {} n (IniIn.mk x error).data from hn.fits) t hin
  refine ⟨r, o, u, hr, ho, hu, ?_, hreports.trans herrors.symm⟩
  rw [hsections, ht, hcontents, List.map_append]

/-- What is appended has room in the arrays. -/
lemma sized_of_onlyAppends (h : OnlyAppends n t x error) : Sized t.cells.length (groups (events x)) := by
  obtain ⟨r, -, hsections⟩ := h.sections
  refine ⟨?_, fun g hg => length_of_holds (h.holds g hg)⟩
  have hsize := r.sections.size_le
  rw [hsections, List.length_append, List.length_map] at hsize
  exact hsize

/-- **Reading only appends**, as long as there is room for it in the arrays. -/
theorem onlyAppends_iff (hn : Ample n x) (hc : Counted x) (t : RawTable) (error : Bool) :
    OnlyAppends n t x error ↔ Sized t.cells.length (groups (events x)) := by
  refine ⟨sized_of_onlyAppends, fun hsized => ?_⟩
  have hin : InRange t.cells.length x := ⟨hc, hsized⟩
  have hin₀ : InRange (GrowArray.new 10 RawSection).cells.length x := ⟨hc, le_trans (by simp) hsized.1, hsized.2⟩
  obtain ⟨r, hr, hsections, hreports⟩ := readRaw_eq hn hin error
  obtain ⟨r₀, hr₀, hsections₀, hreports₀⟩ := readRaw_eq hn hin₀ error
  refine ⟨⟨r, hr, hsections⟩, fun g hg => holds_rawSection (hsized.2 g hg), ⟨r, r₀, hr, hr₀, ?_, ?_⟩, ?_⟩
  · rw [hsections, hsections₀, GrowArray.cells_new, List.nil_append]
  · exact hreports.trans hreports₀.symm
  · rintro s ⟨u, rfl⟩
    obtain ⟨w, hw, happ, -⟩ := run_start hn.of_append hin.of_append
    exact ⟨w, hw, happ⟩

/-- A table with a section `z` that has one entry. -/
def oneSection : RawTable :=
  (GrowArray.new 10 RawSection).push growth_pos (GrowArray.new_grows (by decide))
    (rawSection (.ofBlock [122], [(.ofBlock [97], .ofBlock [])]))

/-- Behind it, a line without `=`, an entry without a section, and a section. -/
theorem onlyAppends_behind : OnlyAppends 128 oneSection (bytes "bad\nk=1\n[a]\nm=2\n") false :=
  (onlyAppends_iff (by decide +kernel) (by decide +kernel) _ false).2 (by decide +kernel)

/-- A table that has as many sections as an array can have. -/
def fullTable : RawTable where
  cells := List.replicate 2147483640 ⟨none, .null⟩
  cap := 2147483640
  length_le := (List.length_replicate).le
  room h := absurd (by rw [List.length_replicate]) h
  size_le := (List.length_replicate).le

/-- One section more: the capacity `10 + 2147483640` that is asked for is no `int`. -/
theorem not_onlyAppends : ¬ ∀ (n : ℕ) (t : RawTable) (x : List UInt8) (error : Bool), Ample n x → OnlyAppends n t x error := by
  intro h
  have hsized := (sized_of_onlyAppends (h 128 fullTable (bytes "[a]") false (by decide +kernel))).1
  have hfull : fullTable.cells.length = 2147483640 := List.length_replicate
  have hone : (groups (events (bytes "[a]"))).length = 1 := by decide +kernel
  rw [hfull, hone] at hsized
  omega

end Run

end Wrensong.Ini
