import Wrensong.Ini.Lexer

/-!
# Reading for a callback and reading into a table

Where a callback supplies both functions, the creators answer null, and the reader takes that for "no current section"
at the next entry. So it creates an empty-named section for each entry, whatever header stands before it. A replay of
the calls has one section for each header and each entry (`replay_calls`); the table has one for each header, and one
more when an entry comes first (`length_groups`).
-/

namespace Wrensong.Ini

open Wrensong.Lib Wrensong.Lib.Bytes

/-- What a client of the callback makes of a call: a new section, or an entry in the section created last. -/
def replayCall (gs : List Group) : Call → List Group
  | .create name => gs ++ [(name, [])]
  | .set key value => if gs = [] then gs else addEntry (key, value) gs

/-- The sections a client of the callback has at the end. -/
def replay (cs : List Call) : List Group := cs.foldl replayCall []

/-- The two ways of reading an input agree: both end, on the same sections and with the same errors. -/
def Agree (input : IniIn) : Prop :=
  ∃ o o' t, iniRead input ⟨true, true⟩ = .ok o ∧ iniTableRead iniTableCreate input = .ok o' ∧
    o'.sink.table = some t ∧ replay o.sink.calls = t.contents ∧ o.errors = o'.errors

/-! ### Headers and entries -/

/-- The event is a section header. -/
def Event.isHeader : Event → Bool
  | .header _ => true
  | .entry _ _ => false
  | .error _ => false

/-- The event is a section header or an entry. -/
def Event.isItem : Event → Bool
  | .header _ => true
  | .entry _ _ => true
  | .error _ => false

/-- The section headers and entries, in order. -/
def items (es : List Event) : List Event := es.filter Event.isItem

/-- The section an event makes on its own. -/
def Event.group : Event → Group
  | .header name => (name, [])
  | .entry key value => (.ofBlock [], [(key, value)])
  | .error _ => (.ofBlock [], [])

/-- **A replay** has a section for each header and one for each entry. -/
lemma replay_calls (es : List Event) (gs : List Group) :
    (calls es).foldl replayCall gs = gs ++ (items es).map Event.group := by
  induction es generalizing gs with
  | nil => simp [calls, items]
  | cons e es ih =>
    have hcons : calls (e :: es) = calls [e] ++ calls es := calls_append [e] es
    rw [hcons, List.foldl_append, ih]
    cases e with
    | header name => simp [calls, replayCall, items, List.filter_cons, Event.isItem, Event.group]
    | entry key value =>
      simp [calls, replayCall, items, List.filter_cons, Event.isItem, Event.group,
        addEntry_concat (key, value) gs (.ofBlock [], [])]
    | error message => simp [calls, items, Event.isItem]

/-- Errors do not change the groups. -/
lemma groups_items (es : List Event) : groups es = groups (items es) := by
  unfold groups items
  generalize ([] : List Group) = gs
  induction es generalizing gs with
  | nil => rfl
  | cons e es ih => cases e <;> simp [List.filter_cons, Event.isItem, addEvent, ih]

lemma length_addEntry (e : CString × CString) {gs : List Group} (hgs : gs ≠ []) :
    (addEntry e gs).length = gs.length := by
  rcases List.eq_nil_or_concat' gs with rfl | ⟨gs, g, rfl⟩
  · exact absurd rfl hgs
  · simp [addEntry_concat]

/-- Behind a first group, only headers add to the number of groups. -/
lemma length_groups (es : List Event) {gs : List Group} (hgs : gs ≠ []) :
    (es.foldl addEvent gs).length = gs.length + es.countP Event.isHeader := by
  induction es generalizing gs with
  | nil => simp
  | cons e es ih =>
    rw [List.foldl_cons, List.countP_cons]
    cases e with
    | header name =>
      rw [ih (by simp [addEvent])]
      simp [addEvent, Event.isHeader]
      omega
    | entry key value =>
      have hne : addEntry (key, value) gs ≠ [] := fun h => by
        have := length_addEntry (key, value) hgs
        rw [h] at this
        exact hgs (List.length_eq_zero_iff.1 this.symm)
      rw [addEvent, ih hne, length_addEntry _ hgs]
      simp [Event.isHeader]
    | error message =>
      rw [addEvent, ih hgs]
      simp [Event.isHeader]

/-- Headers make their groups one after another. -/
lemma groups_headers (es : List Event) (gs : List Group) (h : ∀ e ∈ es, e.isHeader) :
    es.foldl addEvent gs = gs ++ es.map Event.group := by
  induction es generalizing gs with
  | nil => simp
  | cons e es ih =>
    obtain ⟨he, hes⟩ := List.forall_mem_cons.1 h
    rw [List.foldl_cons, ih _ hes]
    cases e with
    | header name => simp [addEvent, Event.group]
    | _ => cases he

/-- **When replay and table are the same**: all items behind the first one are headers. -/
lemma replay_eq_groups_iff (es : List Event) :
    replay (calls es) = groups es ↔ ∀ e ∈ (items es).tail, e.isHeader := by
  rw [replay, replay_calls, List.nil_append, groups_items]
  have hitem : ∀ e ∈ items es, e.isItem = true := fun e he => (List.mem_filter.1 he).2
  rcases hi : items es with _ | ⟨e, rest⟩
  · simp [groups]
  have hfirst : groups (e :: rest) = rest.foldl addEvent [e.group] := by
    have he := hitem e (by rw [hi]; exact List.mem_cons_self)
    cases e with
    | error message => cases he
    | _ => rfl
  rw [hfirst, List.tail_cons]
  constructor
  · intro h
    have hlen := congrArg List.length h
    rw [length_groups rest (by simp)] at hlen
    simp only [List.map_cons, List.length_cons, List.length_map, List.length_nil, Nat.zero_add] at hlen
    have hcount : rest.countP Event.isHeader = rest.length := by omega
    rw [List.countP_eq_length] at hcount
    exact hcount
  · intro h
    rw [groups_headers rest _ h]
    rfl

/-! ### The two ways of reading -/

/-- **When the callback reader and the table reader agree**: on a text that fits into the line buffer and in which all
section headers and entries but the first one are headers. -/
theorem agree_iff {input : IniIn} (hin : InRange 0 input.data) :
    Agree input ↔ FitsBuffer input.data ∧ ∀ e ∈ (items (events input.data)).tail, e.isHeader := by
  obtain ⟨hcall, hcall'⟩ := iniRead_eq hin.1
  obtain ⟨htable, -⟩ := iniTableRead_eq iniTableCreate hin
  have hempty : iniTableCreate.contents = [] := rfl
  rw [← replay_eq_groups_iff]
  constructor
  · rintro ⟨o, o', t, h1, h2, h3, h4, -⟩
    by_cases hfit : FitsBuffer input.data
    · obtain ⟨p, hp, hcalls, -⟩ := hcall hfit
      obtain ⟨p', t', hp', ht', hcont, -⟩ := htable hfit
      rw [hp] at h1
      rw [hp'] at h2
      cases h1
      cases h2
      rw [ht'] at h3
      cases h3
      rw [hempty, List.nil_append] at hcont
      exact ⟨hfit, by rw [← hcalls, h4, hcont]⟩
    · rw [hcall' hfit] at h1
      cases h1
  · rintro ⟨hfit, h⟩
    obtain ⟨p, hp, hcalls, herr⟩ := hcall hfit
    obtain ⟨p', t', hp', ht', hcont, herr'⟩ := htable hfit
    rw [hempty, List.nil_append] at hcont
    exact ⟨p, p', t', hp, hp', ht', by rw [hcalls, h, hcont], by rw [herr, herr']⟩

/-- A line without `=`, an entry without a section, and two headers. -/
theorem agree_headers : Agree ⟨bytes "\nbad\nk=1\n[a]\n[b]\n", false⟩ :=
  (agree_iff (by decide +kernel)).2 (by decide +kernel)

/-- An entry behind a header: the replay has two sections and the table one. -/
theorem not_agree : ¬ ∀ input : IniIn, Agree input := by
  intro h
  obtain ⟨o, o', t, h1, h2, h3, h4, -⟩ := h ⟨bytes "[a]\nk=v\n", false⟩
  have hcall : (iniRead ⟨bytes "[a]\nk=v\n", false⟩ ⟨true, true⟩).toOption.map (fun o => (replay o.sink.calls).length) =
      some 2 := by decide +kernel
  have htable : (iniTableRead iniTableCreate ⟨bytes "[a]\nk=v\n", false⟩).toOption.map
      (fun o => o.sink.table.map fun t => t.contents.length) = some (some 1) := by decide +kernel
  rw [h1] at hcall
  rw [h2] at htable
  simp only [Except.toOption, Option.map_some, Option.some.injEq, h3, h4] at hcall htable
  omega

end Wrensong.Ini
