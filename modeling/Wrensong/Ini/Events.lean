import Wrensong.Ini.Reader

/-!
# What the lines of a configuration build

A line completes an `Event`: a section header, an entry or an error. `Output.apply` is what the reader puts out for one.
In a table the events of a reading build `groups`: each header starts a group, an entry goes to the last group, and the
first entry starts an empty-named group where there is none (`Building.applyAll`). The arrays of the table have room for the
groups as long as these are `Sized`. A callback gets `calls`: since its creators answer null, there is never a current
section, and each entry comes with a section of its own (`applyAll_callback`).
-/

namespace Wrensong.Ini

open Wrensong.Lib Wrensong.Lib.Bytes

/-- What a line completes. -/
inductive Event
  | header (name : CString)
  | entry (key value : CString)
  | error (message : List UInt8)
  deriving DecidableEq

/-- What the reader puts out for an event. -/
def Output.apply (call : Option IniCallback) (o : Output) : Event → Except IniFault Output
  | .header name => o.createSection call name
  | .entry key value => do
    let o ← o.needSection call
    o.createEntry call key value
  | .error message => pure (o.report message)

/-- What the reader puts out for a list of events. -/
def Output.applyAll (call : Option IniCallback) (o : Output) (es : List Event) : Except IniFault Output :=
  es.foldlM (Output.apply call) o

lemma applyAll_cons {call : Option IniCallback} {o o' o'' : Output} {e : Event} {es : List Event}
    (h : o.apply call e = .ok o') (h' : o'.applyAll call es = .ok o'') : o.applyAll call (e :: es) = .ok o'' := by
  simp only [Output.applyAll, List.foldlM_cons, h, bind, Except.bind]
  exact h'

/-! ### Groups and calls -/

/-- A section: its name, and its keys and values. -/
abbrev Group := CString × List (CString × CString)

/-- Appends an entry to the last group, or to an empty-named one where there is none. -/
def addEntry (e : CString × CString) : List Group → List Group
  | [] => [(.ofBlock [], [e])]
  | [g] => [(g.1, g.2 ++ [e])]
  | g :: gs => g :: addEntry e gs

/-- What an event does to the groups of a reading. -/
def addEvent (gs : List Group) : Event → List Group
  | .header name => gs ++ [(name, [])]
  | .entry key value => addEntry (key, value) gs
  | .error _ => gs

/-- The groups a list of events builds. -/
def groups (es : List Event) : List Group := es.foldl addEvent []

/-- The messages in a list of events. -/
def messages (es : List Event) : List (List UInt8) :=
  es.filterMap fun
    | .error message => some message
    | _ => none

/-- The calls a list of events makes. -/
def calls (es : List Event) : List Call :=
  es.flatMap fun
    | .header name => [.create name]
    | .entry key value => [.create (.ofBlock []), .set key value]
    | .error _ => []

lemma addEntry_concat (e : CString × CString) (gs : List Group) (g : Group) :
    addEntry e (gs ++ [g]) = gs ++ [(g.1, g.2 ++ [e])] := by
  induction gs with
  | nil => rfl
  | cons g' gs ih =>
    cases gs with
    | nil => rfl
    | cons g'' gs => simpa [addEntry] using ih

@[simp] lemma messages_append (es es' : List Event) : messages (es ++ es') = messages es ++ messages es' := by
  simp [messages]

@[simp] lemma calls_append (es es' : List Event) : calls (es ++ es') = calls es ++ calls es' := by simp [calls]

/-! ### Sizes -/

/-- Behind `k` sections a table has room for the groups, and each of its sections for their entries. -/
def Sized (k : ℕ) (gs : List Group) : Prop := k + gs.length ≤ 2147483640 ∧ ∀ g ∈ gs, g.2.length ≤ 2147483640

instance (k : ℕ) (gs : List Group) : Decidable (Sized k gs) := by unfold Sized; infer_instance

section Sized

variable {k : ℕ} {gs : List Group}

/-- An event takes nothing away. -/
lemma Sized.of_addEvent {e : Event} (h : Sized k (addEvent gs e)) : Sized k gs := by
  cases e with
  | header name =>
    obtain ⟨hlen, hentries⟩ := h
    refine ⟨?_, fun g hg => hentries g (List.mem_append_left _ hg)⟩
    simp only [addEvent, List.length_append, List.length_singleton] at hlen
    omega
  | entry key value =>
    rcases List.eq_nil_or_concat' gs with rfl | ⟨gs, g, rfl⟩
    · exact ⟨le_trans (Nat.le_succ _) h.1, fun g hg => absurd hg List.not_mem_nil⟩
    · rw [addEvent, addEntry_concat] at h
      obtain ⟨hlen, hentries⟩ := h
      refine ⟨by simpa using hlen, fun g' hg' => ?_⟩
      rcases List.mem_append.1 hg' with hg' | hg'
      · exact hentries g' (List.mem_append_left _ hg')
      · obtain rfl := List.mem_singleton.1 hg'
        have hlast := hentries _ (List.mem_append_right _ (List.mem_singleton_self _))
        simp only [List.length_append, List.length_singleton] at hlast
        omega
  | error message => exact h

lemma Sized.of_foldl {es : List Event} (h : Sized k (es.foldl addEvent gs)) : Sized k gs := by
  induction es generalizing gs with
  | nil => exact h
  | cons e es ih => exact (ih h).of_addEvent

end Sized

/-! ### A reading into a table -/

/-- The output of a reading into a table that held `gs₀`: the groups `gs` stand behind them, and the last one of them is
the current section. -/
structure Building (gs₀ gs : List Group) (o : Output) : Prop where
  table : ∃ t, o.sink.table = some t ∧ t.contents = gs₀ ++ gs
  current : o.currentSection = if gs = [] then none else some (gs₀.length + gs.length - 1)

section Table

variable {gs₀ gs : List Group} {o : Output} {t t' : IniTable} {name : CString}

lemma contents_length (t : IniTable) : t.contents.length = t.sections.cells.length := by simp [IniTable.contents]

/-- The sizes of a table are in range. -/
lemma sized_contents (t : IniTable) : Sized 0 t.contents := by
  refine ⟨?_, ?_⟩
  · rw [Nat.zero_add, contents_length]
    exact t.sections.size_le
  · intro g hg
    obtain ⟨sec, -, rfl⟩ := List.mem_map.1 hg
    rw [List.length_map]
    exact sec.entries.size_le

lemma contents_pushSection (h : t.pushSection name = some t') : t'.contents = t.contents ++ [(name, [])] := by
  rw [IniTable.contents, pushSection_cells h, List.map_append]
  rfl

/-- An entry behind those of the last section, where there is room. -/
lemma contents_pushEntry {g : Group} (h : t.contents = gs ++ [g]) (hroom : g.2.length < 2147483640) (key value : CString) :
    ∃ t', t.pushEntry gs.length key value = some t' ∧ t'.contents = gs ++ [(g.1, g.2 ++ [(key, value)])] := by
  obtain ⟨cells, sec, hcells⟩ : ∃ cells sec, t.sections.cells = cells ++ [sec] := by
    rcases List.eq_nil_or_concat' t.sections.cells with hnil | ⟨cells, sec, hsec⟩
    · simp [IniTable.contents, hnil] at h
    · exact ⟨cells, sec, hsec⟩
  simp only [IniTable.contents, hcells, List.map_append, List.map_cons, List.map_nil] at h
  obtain ⟨h1, h2⟩ := List.append_inj' h rfl
  obtain rfl := (List.cons.inj h2).1
  have hlen : gs.length = cells.length := by rw [← h1, List.length_map]
  rw [hlen]
  obtain ⟨t', ht'⟩ := (pushEntry_isSome hcells key value).2 (by simpa using hroom)
  obtain ⟨sec', hcells', hname, hentries⟩ := pushEntry_cells hcells ht'
  refine ⟨t', ht', ?_⟩
  rw [IniTable.contents, hcells', List.map_append, h1, List.map_cons, hname, hentries, List.map_append]
  rfl

lemma Building.createSection (h : Building gs₀ gs o) (hroom : gs₀.length + gs.length < 2147483640) (name : CString) :
    ∃ o', o.createSection none name = .ok o' ∧ Building gs₀ (gs ++ [(name, [])]) o' ∧ o'.errors = o.errors := by
  obtain ⟨t, ht, hcont⟩ := h.table
  have hlen : t.sections.cells.length = gs₀.length + gs.length := by
    rw [← contents_length, hcont, List.length_append]
  obtain ⟨t', ht'⟩ := (pushSection_isSome t name).2 (by omega)
  refine ⟨{ o with sink := { o.sink with table := some t' }, currentSection := some t.sections.cells.length }, ?_,
    ⟨⟨t', rfl, ?_⟩, ?_⟩, rfl⟩
  · simp [Output.createSection, iniSectionCreate, ht, ht', pure, Except.pure, Except.map]
  · rw [contents_pushSection ht', hcont, List.append_assoc]
  · simp [hlen]

lemma Building.createEntry {g : Group} (h : Building gs₀ (gs ++ [g]) o) (hroom : g.2.length < 2147483640)
    (key value : CString) :
    ∃ o', o.createEntry none key value = .ok o' ∧ Building gs₀ (gs ++ [(g.1, g.2 ++ [(key, value)])]) o' ∧
      o'.errors = o.errors := by
  obtain ⟨t, ht, hcont⟩ := h.table
  have hcur : o.currentSection = some (gs₀ ++ gs).length := by
    rw [h.current, if_neg (by simp)]
    simp only [List.length_append, List.length_singleton, Option.some.injEq]
    omega
  rw [← List.append_assoc] at hcont
  obtain ⟨t', ht', hcont'⟩ := contents_pushEntry hcont hroom key value
  refine ⟨{ o with sink := { o.sink with table := some t' } }, ?_, ⟨⟨t', rfl, ?_⟩, ?_⟩, rfl⟩
  · simp only [Output.createEntry, iniEntryCreate, ht, hcur, ht']
    rfl
  · rw [hcont', List.append_assoc]
  · simpa using hcur

/-- **One event of a reading into a table.** -/
lemma Building.apply (h : Building gs₀ gs o) {e : Event} (hsized : Sized gs₀.length (addEvent gs e)) :
    ∃ o', o.apply none e = .ok o' ∧ Building gs₀ (addEvent gs e) o' ∧ o'.errors = o.errors ++ messages [e] := by
  cases e with
  | header name =>
    have hlen := hsized.1
    simp only [addEvent, List.length_append, List.length_singleton] at hlen
    obtain ⟨o', h1, h2, h3⟩ := h.createSection (by omega) name
    exact ⟨o', h1, h2, by simp [h3, messages]⟩
  | entry key value =>
    rcases List.eq_nil_or_concat' gs with rfl | ⟨gs, g, rfl⟩
    · obtain ⟨o1, h1, h2, h3⟩ := h.createSection hsized.1 (.ofBlock [])
      obtain ⟨o', h4, h5, h6⟩ := h2.createEntry (by decide) key value
      refine ⟨o', ?_, h5, by simp [h3, h6, messages]⟩
      have hneed : o.needSection none = .ok o1 := by rw [Output.needSection, h.current, if_pos rfl]; exact h1
      simp only [Output.apply, hneed, bind, Except.bind]
      exact h4
    · rw [addEvent, addEntry_concat] at hsized ⊢
      have hlast := hsized.2 _ (List.mem_append_right _ (List.mem_singleton_self _))
      simp only [List.length_append, List.length_singleton] at hlast
      obtain ⟨o', h4, h5, h6⟩ := h.createEntry (by omega) key value
      refine ⟨o', ?_, h5, by simp [h6, messages]⟩
      have hneed : o.needSection none = .ok o := by
        rw [Output.needSection, h.current, if_neg (by simp)]
        rfl
      simp only [Output.apply, hneed, bind, Except.bind]
      exact h4
  | error message => exact ⟨o.report message, rfl, ⟨h.table, h.current⟩, by simp [Output.report, messages]⟩

/-- **A reading into a table** puts its groups behind the sections that were there. -/
theorem Building.applyAll (h : Building gs₀ gs o) {es : List Event} (hsized : Sized gs₀.length (es.foldl addEvent gs)) :
    ∃ o', o.applyAll none es = .ok o' ∧ Building gs₀ (es.foldl addEvent gs) o' ∧
      o'.errors = o.errors ++ messages es := by
  induction es generalizing gs o with
  | nil => exact ⟨o, rfl, h, by simp [messages]⟩
  | cons e es ih =>
    rw [List.foldl_cons] at hsized
    obtain ⟨o1, h1, h2, h3⟩ := h.apply hsized.of_foldl
    obtain ⟨o', h4, h5, h6⟩ := ih h2 hsized
    refine ⟨o', applyAll_cons h1 h4, h5, ?_⟩
    rw [h6, h3, List.append_assoc, ← messages_append]
    rfl

lemma building_start (t : IniTable) : Building t.contents [] { sink := { table := some t } } :=
  ⟨⟨t, rfl, by simp⟩, rfl⟩

/-- What the events of a reading leave in the table `t`. -/
lemma applyAll_table (t : IniTable) (es : List Event) (hsized : Sized t.sections.cells.length (groups es)) :
    ∃ o u, Output.applyAll none { sink := { table := some t } } es = .ok o ∧ o.sink.table = some u ∧
      u.contents = t.contents ++ groups es ∧ o.errors = messages es := by
  rw [← contents_length] at hsized
  obtain ⟨o, ho, hb, herr⟩ := (building_start t).applyAll hsized
  obtain ⟨u, hu, hc⟩ := hb.table
  exact ⟨o, u, ho, hu, hc, by simpa using herr⟩

end Table

/-! ### A reading for a callback -/

/-- **A reading for a callback with both functions** makes the calls of its events. -/
theorem applyAll_callback {o : Output} (es : List Event) (ho : o.currentSection = none) :
    ∃ o', o.applyAll (some ⟨true, true⟩) es = .ok o' ∧ o'.currentSection = none ∧
      o'.sink.calls = o.sink.calls ++ calls es ∧ o'.errors = o.errors ++ messages es := by
  induction es generalizing o with
  | nil => exact ⟨o, rfl, ho, by simp [calls], by simp [messages]⟩
  | cons e es ih =>
    obtain ⟨o1, h1, h2, h3, h4⟩ : ∃ o1, o.apply (some ⟨true, true⟩) e = .ok o1 ∧ o1.currentSection = none ∧
        o1.sink.calls = o.sink.calls ++ calls [e] ∧ o1.errors = o.errors ++ messages [e] := by
      cases e with
      | header name => exact ⟨_, rfl, rfl, by simp [calls], by simp [messages]⟩
      | entry key value =>
        refine ⟨{ o with sink := { o.sink with
          calls := o.sink.calls ++ [.create (.ofBlock [])] ++ [.set key value] }, currentSection := none }, ?_, rfl,
          by simp [calls], by simp [messages]⟩
        simp only [Output.apply, Output.needSection, ho]
        rfl
      | error message => exact ⟨_, rfl, ho, by simp [calls, Output.report], by simp [messages, Output.report]⟩
    obtain ⟨o', h5, h6, h7, h8⟩ := ih h2
    refine ⟨o', applyAll_cons h1 h5, h6, ?_, ?_⟩
    · rw [h7, h3, List.append_assoc, ← calls_append]
      rfl
    · rw [h8, h4, List.append_assoc, ← messages_append]
      rfl

/-! ### No fault is met -/

/-- An output of one of the two ways of reading, with the events `es` to come: a reading into a table that has room for them,
or one for a callback with both functions. -/
def Output.Ready (call : Option IniCallback) (o : Output) (es : List Event) : Prop :=
  (call = none ∧ ∃ gs₀ gs, Building gs₀ gs o ∧ Sized gs₀.length (es.foldl addEvent gs)) ∨
    (call = some ⟨true, true⟩ ∧ o.currentSection = none)

lemma ready_start {t : IniTable} {es : List Event} (h : Sized t.sections.cells.length (groups es)) :
    Output.Ready none { sink := { table := some t } } es :=
  Or.inl ⟨rfl, _, _, building_start t, by rwa [contents_length]⟩

lemma Output.Ready.apply {call : Option IniCallback} {o : Output} {es es' : List Event} (h : o.Ready call (es ++ es')) :
    ∃ o', o.applyAll call es = .ok o' ∧ o'.Ready call es' := by
  rcases h with ⟨rfl, gs₀, gs, h, hsized⟩ | ⟨rfl, h⟩
  · rw [List.foldl_append] at hsized
    obtain ⟨o', h1, h2, -⟩ := h.applyAll hsized.of_foldl
    exact ⟨o', h1, Or.inl ⟨rfl, gs₀, _, h2, hsized⟩⟩
  · obtain ⟨o', h1, h2, -⟩ := applyAll_callback es h
    exact ⟨o', h1, Or.inr ⟨rfl, h2⟩⟩

end Wrensong.Ini
