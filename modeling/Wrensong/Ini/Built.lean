import Wrensong.Ini.Lookup
import Wrensong.Lib.Assoc

/-!
# Tables that are built by hand

A table to which only `ini_table_create_entry` writes. What it says is the map of maps of the calls (`contents_build`), so
that names and keys are distinct and stand in the order in which they came, and a lookup finds the value of the last call.

`Built` is the table with a record of the stores into its arrays. The section array and the entry arrays have the room that
their last `calloc` or `realloc` has set; `realloc` is called where the size is a multiple of ten. No store is outside, but
at the size 2147483640 the capacity for one more cell is no `int`: the calls go through as long as there are `Few` sections
and keys (`build_isSome_iff`).
-/

namespace Wrensong.Ini

open Wrensong.Lib Wrensong.Lib.Bytes

/-! ### The calls with their stores -/

/-- A store into an array: where, and the capacity that the last growth of the array has set. -/
structure Store where
  index : ℕ
  cap : ℕ
  deriving DecidableEq

/-- The arguments of `ini_table_create_entry`. -/
structure EntryCall where
  sectionName : CString
  key : CString
  value : CString
  deriving DecidableEq

/-- A table and the stores into its arrays. -/
structure Built where
  table : IniTable
  stores : List Store := []
  deriving DecidableEq

namespace Built

/-- `_ini_section_create`: all stores go to the new section. -/
def sectionCreate (b : Built) (name : CString) : Option Built :=
  (b.table.pushSection name).map fun t =>
    ⟨t, b.stores ++ [⟨b.table.sections.cells.length, b.table.sections.capAfter⟩]⟩

/-- `_ini_entry_create` in the section `sec` with the index `i`: `entry` and `size` of the section are set, and the key and
the value of the new entry. -/
def entryCreate (b : Built) (i : ℕ) (sec : IniSection) (key value : CString) : Option Built :=
  (b.table.pushEntry i key value).map fun t =>
    ⟨t, b.stores ++ [⟨i, b.table.sections.cap⟩, ⟨sec.entries.cells.length, sec.entries.capAfter⟩]⟩

/-- `entry->value = strdup(value)`. -/
def setValue (b : Built) (i : ℕ) (sec : IniSection) (j : ℕ) (value : CString) : Built :=
  ⟨b.table.setValue i j value, b.stores ++ [⟨j, sec.entries.cap⟩]⟩

/-- The second half of `ini_table_create_entry`, in the section with the index `i`, which is one of the table. -/
def createIn (b : Built) (i : ℕ) (key value : CString) : Option Built := do
  let sec ← b.table.sections.cells[i]?
  match iniEntryFind sec key with
  | none => b.entryCreate i sec key value
  | some j => some (b.setValue i sec j value)

/-- `ini_table_create_entry`. -/
def call (b : Built) (c : EntryCall) : Option Built :=
  match iniSectionFind b.table c.sectionName with
  | none => (b.sectionCreate c.sectionName).bind fun b' => b'.createIn b.table.sections.cells.length c.key c.value
  | some i => b.createIn i c.key c.value

end Built

/-- Without the stores it is the call of the table. -/
lemma Built.table_call (b : Built) (c : EntryCall) :
    (b.call c).map Built.table = iniTableCreateEntry b.table c.sectionName c.key c.value := by
  have hin : ∀ (b : Built) {i : ℕ} (_ : i < b.table.sections.cells.length),
      (b.createIn i c.key c.value).map Built.table = createEntryIn b.table i c.key c.value := by
    intro b i hi
    rw [Built.createIn, createEntryIn, List.getElem?_eq_getElem hi, Option.bind_some]
    simp only [bind, Option.bind_some]
    cases iniEntryFind b.table.sections.cells[i] c.key with
    | none =>
      simp only [Built.entryCreate, Option.map_map, Function.comp_def]
      exact Option.map_id'
    | some j => rfl
  unfold Built.call iniTableCreateEntry
  cases hfind : iniSectionFind b.table c.sectionName with
  | none =>
    cases hpush : b.table.pushSection c.sectionName with
    | none => simp [Built.sectionCreate, hpush]
    | some t =>
      have hlen : b.table.sections.cells.length < t.sections.cells.length := by simp [pushSection_cells hpush]
      simp only [Built.sectionCreate, hpush, Option.map_some, Option.bind_some]
      exact hin ⟨t, _⟩ hlen
  | some i => exact hin b (List.findIdx?_eq_some_iff_getElem.1 hfind).1

/-- The calls on the table of `ini_table_create`. -/
def build (calls : List EntryCall) : Option Built := calls.foldlM Built.call ⟨iniTableCreate, []⟩

lemma build_concat (calls : List EntryCall) (c : EntryCall) : build (calls ++ [c]) = (build calls).bind (Built.call · c) := by
  simp only [build, List.foldlM_append, List.foldlM_cons, List.foldlM_nil, bind_pure]
  rfl

/-! ### The stores -/

section Stores

variable {b b' : Built} {i : ℕ} {sec : IniSection} {c : EntryCall} {calls : List EntryCall}

/-- The stores of a call into a section that is there. -/
lemma stores_createIn (hi : b.table.sections.cells[i]? = some sec) {key value : CString}
    (h : b.createIn i key value = some b') : ∀ s ∈ b'.stores, s ∈ b.stores ∨ s.index < s.cap := by
  have hilen : i < b.table.sections.cells.length := (List.getElem?_eq_some_iff.1 hi).1
  have hcap := b.table.sections.length_le
  intro s hs
  rw [Built.createIn, hi] at h
  simp only [bind, Option.bind_some] at h
  cases hfind : iniEntryFind sec key with
  | none =>
    rw [hfind] at h
    obtain ⟨t, -, rfl⟩ := Option.map_eq_some_iff.1 h
    simp only [List.mem_append, List.mem_cons, List.not_mem_nil, or_false] at hs
    rcases hs with hs | rfl | rfl
    · exact Or.inl hs
    · right
      dsimp only
      omega
    · exact Or.inr (sec.entries.length_lt_capAfter growth_pos)
  | some j =>
    have hj : j < sec.entries.cells.length := (List.findIdx?_eq_some_iff_getElem.1 hfind).1
    have hroom := sec.entries.length_le
    rw [hfind] at h
    cases h
    simp only [Built.setValue, List.mem_append, List.mem_cons, List.not_mem_nil, or_false] at hs
    rcases hs with hs | rfl
    · exact Or.inl hs
    · right
      dsimp only
      omega

/-- **Every store of a call is below the capacity.** -/
lemma stores_call (h : b.call c = some b') : ∀ s ∈ b'.stores, s ∈ b.stores ∨ s.index < s.cap := by
  intro s hs
  unfold Built.call at h
  cases hfind : iniSectionFind b.table c.sectionName with
  | none =>
    rw [hfind] at h
    obtain ⟨b1, h1, h2⟩ := Option.bind_eq_some_iff.1 h
    obtain ⟨t, ht, rfl⟩ := Option.map_eq_some_iff.1 h1
    have hnew : t.sections.cells[b.table.sections.cells.length]? = some ⟨c.sectionName, .new 10 IniEntry⟩ := by
      simp [pushSection_cells ht]
    rcases stores_createIn hnew h2 s hs with hs | hs
    · rcases List.mem_append.1 hs with hs | hs
      · exact Or.inl hs
      · obtain rfl := List.mem_singleton.1 hs
        exact Or.inr (b.table.sections.length_lt_capAfter growth_pos)
    · exact Or.inr hs
  | some i =>
    rw [hfind] at h
    have hi : i < b.table.sections.cells.length := (List.findIdx?_eq_some_iff_getElem.1 hfind).1
    exact stores_createIn (List.getElem?_eq_getElem hi) h s hs

lemma stores_build (h : build calls = some b) : ∀ s ∈ b.stores, s.index < s.cap := by
  induction calls using List.reverseRecOn generalizing b with
  | nil =>
    cases h
    exact fun s hs => absurd hs List.not_mem_nil
  | append_singleton calls c ih =>
    rw [build_concat] at h
    obtain ⟨b1, h1, h2⟩ := Option.bind_eq_some_iff.1 h
    exact fun s hs => (stores_call h2 s hs).elim (ih h1 s) id

end Stores

/-! ### What the table says -/

section Contents

variable {t : IniTable} {s k v : CString}

/-- A lookup in the contents. -/
lemma iniTableGetEntry_eq (t : IniTable) (s k : CString) :
    iniTableGetEntry t s k = (t.contents.lookup s).bind (List.lookup k) := by
  have hentries : ∀ l : List IniEntry, (l.find? fun e => e.key = k).map IniEntry.value =
      (l.map fun e => (e.key, e.value)).lookup k := by
    intro l
    induction l with
    | nil => rfl
    | cons e l ih =>
      rw [List.map_cons, lookup_cons_pair, List.find?_cons, ← ih]
      by_cases he : e.key = k
      · simp [he]
      · simp [he, Ne.symm he]
  have hsections : ∀ l : List IniSection, ((l.find? fun sec => sec.name = s).map fun sec =>
      sec.entries.cells.map fun e => (e.key, e.value)) =
      (l.map fun sec => (sec.name, sec.entries.cells.map fun e => (e.key, e.value))).lookup s := by
    intro l
    induction l with
    | nil => rfl
    | cons sec l ih =>
      rw [List.map_cons, lookup_cons_pair, List.find?_cons, ← ih]
      by_cases hsec : sec.name = s
      · simp [hsec]
      · simp [hsec, Ne.symm hsec]
  rw [iniTableGetEntry, iniEntryGet_eq, IniTable.contents, ← hsections, Option.map_bind, Option.bind_map]
  simp only [Function.comp_def, hentries]

/-- Where the entry stands that a search has found. -/
lemma iniEntryFind_some {sec : IniSection} {j : ℕ} (h : iniEntryFind sec k = some j) :
    ∃ pre e post, sec.entries.cells = pre ++ e :: post ∧ pre.length = j ∧ e.key = k ∧ ∀ e' ∈ pre, e'.key ≠ k := by
  obtain ⟨hj, he, hfirst⟩ := List.findIdx?_eq_some_iff_getElem.1 h
  refine ⟨sec.entries.cells.take j, sec.entries.cells[j], sec.entries.cells.drop (j + 1), ?_, ?_, by simpa using he, ?_⟩
  · rw [List.getElem_cons_drop, List.take_append_drop]
  · rw [List.length_take]
    omega
  · intro e' he'
    obtain ⟨i, hi, rfl⟩ := List.mem_take_iff_getElem.1 he'
    simpa using hfirst i (by omega)

/-- The pair of a section. -/
def groupOf (sec : IniSection) : Group := (sec.name, sec.entries.cells.map fun e => (e.key, e.value))

lemma contents_setValue {pre post : List IniSection} {sec : IniSection} (ht : t.sections.cells = pre ++ sec :: post)
    {epre epost : List IniEntry} {e : IniEntry} (hsec : sec.entries.cells = epre ++ e :: epost) (v : CString) :
    (t.setValue pre.length epre.length v).contents = pre.map groupOf ++ (sec.name,
      (epre.map fun e => (e.key, e.value)) ++ (e.key, v) :: epost.map fun e => (e.key, e.value)) :: post.map groupOf := by
  rw [IniTable.contents, IniTable.setValue, GrowArray.cells_modify, ht, GrowArray.modify_append_cons, List.map_append,
    List.map_cons, GrowArray.cells_modify, hsec, GrowArray.modify_append_cons, List.map_append, List.map_cons]
  rfl

/-- The second half of a call changes the entries of one section, as a map does. -/
lemma contents_createIn {b b' : Built} {pre post : List IniSection} {sec : IniSection}
    (ht : b.table.sections.cells = pre ++ sec :: post) {k v : CString} (h : b.createIn pre.length k v = some b') :
    b'.table.contents = pre.map groupOf ++ (sec.name, upsert k (fun _ => v) (groupOf sec).2) :: post.map groupOf := by
  have hi : b.table.sections.cells[pre.length]? = some sec := by simp [ht]
  rw [Built.createIn, hi] at h
  simp only [bind, Option.bind_some] at h
  cases hfind : iniEntryFind sec k with
  | none =>
    have hnew : ∀ e ∈ sec.entries.cells, e.key ≠ k := by simpa using List.findIdx?_eq_none_iff.1 hfind
    have hkeys : ∀ p ∈ (groupOf sec).2, p.1 ≠ k := by simpa [groupOf] using hnew
    have hup : upsert k (fun _ => v) (groupOf sec).2 = (groupOf sec).2 ++ [(k, v)] := upsert_of_new hkeys
    rw [hfind] at h
    obtain ⟨t, ht', rfl⟩ := Option.map_eq_some_iff.1 h
    obtain ⟨sec', hcells, hname, hentries⟩ := pushEntry_cells ht ht'
    rw [hup, IniTable.contents, hcells, List.map_append, List.map_cons, hname, hentries, List.map_append]
    rfl
  | some j =>
    obtain ⟨epre, e, epost, hcells, rfl, rfl, hfirst⟩ := iniEntryFind_some hfind
    have hup : upsert e.key (fun _ => v) (groupOf sec).2 =
        (epre.map fun e => (e.key, e.value)) ++ (e.key, v) :: epost.map fun e => (e.key, e.value) := by
      rw [groupOf, hcells, List.map_append, List.map_cons]
      exact upsert_append_cons (by simpa using hfirst)
    rw [hfind] at h
    cases h
    rw [hup]
    exact contents_setValue ht hcells v

/-- **One call writes one pair of keys.** -/
lemma contents_call {b b' : Built} {c : EntryCall} (h : b.call c = some b') :
    b'.table.contents = put b.table.contents (c.sectionName, c.key, c.value) := by
  have hgroups : b.table.contents = b.table.sections.cells.map groupOf := rfl
  unfold Built.call at h
  cases hfind : iniSectionFind b.table c.sectionName with
  | none =>
    have hnew : ∀ sec ∈ b.table.sections.cells, sec.name ≠ c.sectionName := by
      simpa using List.findIdx?_eq_none_iff.1 hfind
    rw [hfind] at h
    obtain ⟨b1, h1, h2⟩ := Option.bind_eq_some_iff.1 h
    obtain ⟨t, ht, rfl⟩ := Option.map_eq_some_iff.1 h1
    have hnames : ∀ g ∈ b.table.sections.cells.map groupOf, g.1 ≠ c.sectionName := by
      simpa [groupOf] using hnew
    rw [contents_createIn (pushSection_cells ht) h2, hgroups, put, upsert_of_new hnames]
    rfl
  | some i =>
    obtain ⟨pre, sec, post, ht, rfl, hname, hpre⟩ := iniSectionFind_some hfind
    rw [hfind] at h
    have hsec : groupOf sec = (c.sectionName, (groupOf sec).2) := by rw [groupOf, hname]
    rw [contents_createIn ht h, hgroups, ht, put, List.map_append, List.map_cons, hsec,
      upsert_append_cons (by simpa [groupOf] using hpre), hname]
    rfl

/-- The call as a write. -/
def EntryCall.write (c : EntryCall) : CString × CString × CString := (c.sectionName, c.key, c.value)

/-- **A table built by hand is the map of the calls.** -/
theorem contents_build {calls : List EntryCall} {b : Built} (h : build calls = some b) :
    b.table.contents = collect₂ (calls.map EntryCall.write) := by
  induction calls using List.reverseRecOn generalizing b with
  | nil =>
    cases h
    rfl
  | append_singleton calls c ih =>
    rw [build_concat] at h
    obtain ⟨b1, h1, h2⟩ := Option.bind_eq_some_iff.1 h
    rw [contents_call h2, ih h1, List.map_append, List.map_singleton, collect₂_concat]
    rfl

end Contents

/-! ### A finite map -/

/-- The calls for a section. -/
def callsFor (s : CString) (calls : List EntryCall) : List EntryCall := calls.filter fun c => c.sectionName = s

/-- The value of the last call for a section and a key. -/
def lastValue (s k : CString) (calls : List EntryCall) : Option CString :=
  ((callsFor s calls).filter fun c => c.key = k).getLast?.map EntryCall.value

/-- What the table and the stores are after the calls. -/
structure FiniteMap (calls : List EntryCall) (b : Built) : Prop where
  names_nodup : (b.table.sections.cells.map IniSection.name).Nodup
  keys_nodup : ∀ sec ∈ b.table.sections.cells, (sec.entries.cells.map IniEntry.key).Nodup
  names_order : b.table.sections.cells.map IniSection.name = (calls.map EntryCall.sectionName).eraseDups
  keys_order : ∀ sec ∈ b.table.sections.cells,
    sec.entries.cells.map IniEntry.key = ((callsFor sec.name calls).map EntryCall.key).eraseDups
  lookup : ∀ s k, iniTableGetEntry b.table s k = lastValue s k calls
  frame : ∀ c b' s k, b.call c = some b' → (s, k) ≠ (c.sectionName, c.key) →
    iniTableGetEntry b'.table s k = iniTableGetEntry b.table s k
  stores_inside : ∀ s ∈ b.stores, s.index < s.cap

section FiniteMap

variable {calls : List EntryCall} {b b' : Built} {s k : CString}

lemma writesTo_calls : writesTo s (calls.map EntryCall.write) = (callsFor s calls).map fun c => (c.key, c.value) := by
  rw [writesTo, List.filter_map, List.map_map]
  rfl

lemma lastWrite_calls : lastWrite k (writesTo s (calls.map EntryCall.write)) = lastValue s k calls := by
  rw [writesTo_calls, lastWrite, List.filter_map, List.getLast?_map, Option.map_map]
  rfl

lemma names_build (h : build calls = some b) :
    b.table.sections.cells.map IniSection.name = (calls.map EntryCall.sectionName).eraseDups := by
  have hkeys := keys_collect₂ (calls.map EntryCall.write)
  rw [← contents_build h, IniTable.contents, List.map_map, List.map_map] at hkeys
  exact hkeys

lemma keys_build (h : build calls = some b) {sec : IniSection} (hsec : sec ∈ b.table.sections.cells) :
    sec.entries.cells.map IniEntry.key = ((callsFor sec.name calls).map EntryCall.key).eraseDups := by
  have hmem : groupOf sec ∈ collect₂ (calls.map EntryCall.write) := by
    rw [← contents_build h]
    exact List.mem_map_of_mem hsec
  have hkeys := keys_collect (writesTo sec.name (calls.map EntryCall.write))
  rw [← mem_collect₂ _ hmem, writesTo_calls, List.map_map, List.map_map] at hkeys
  exact hkeys

lemma iniTableGetEntry_build (h : build calls = some b) (s k : CString) :
    iniTableGetEntry b.table s k = lastValue s k calls := by
  rw [iniTableGetEntry_eq, contents_build h, lookup_collect₂, lastWrite_calls]

/-- A call is seen at its section and key only. -/
lemma iniTableGetEntry_call {c : EntryCall} (h : b.call c = some b') (hne : (s, k) ≠ (c.sectionName, c.key)) :
    iniTableGetEntry b'.table s k = iniTableGetEntry b.table s k := by
  rw [iniTableGetEntry_eq, contents_call h, iniTableGetEntry_eq, put, lookup_upsert]
  by_cases hs : s = c.sectionName
  · subst hs
    have hk : k ≠ c.key := fun hk => hne (by rw [hk])
    rw [if_pos rfl, Option.bind_some, lookup_upsert, if_neg hk]
    cases b.table.contents.lookup c.sectionName <;> rfl
  · rw [if_neg hs]

/-- What the calls have built is a finite map. -/
lemma finiteMap_build (h : build calls = some b) : FiniteMap calls b where
  names_nodup := by
    rw [names_build h]
    exact nodup_eraseDups _
  keys_nodup sec hsec := by
    rw [keys_build h hsec]
    exact nodup_eraseDups _
  names_order := names_build h
  keys_order sec hsec := keys_build h hsec
  lookup := iniTableGetEntry_build h
  frame _ _ _ _ hc hne := iniTableGetEntry_call hc hne
  stores_inside := stores_build h

end FiniteMap

/-! ### How far a table can be built -/

/-- The sections and the keys of each section are no more than an array can have. -/
def Few (calls : List EntryCall) : Prop :=
  (calls.map EntryCall.sectionName).eraseDups.length ≤ 2147483640 ∧
    ∀ s, ((callsFor s calls).map EntryCall.key).eraseDups.length ≤ 2147483640

section Few

variable {calls : List EntryCall} {b : Built} {c : EntryCall}

lemma callsFor_concat (s : CString) (calls : List EntryCall) (c : EntryCall) :
    callsFor s (calls ++ [c]) = if c.sectionName = s then callsFor s calls ++ [c] else callsFor s calls := by
  rw [callsFor, List.filter_append]
  by_cases h : c.sectionName = s
  · simp [callsFor, h]
  · simp [callsFor, h]

lemma Few.of_concat (h : Few (calls ++ [c])) : Few calls := by
  obtain ⟨hnames, hkeys⟩ := h
  rw [List.map_append, List.map_singleton] at hnames
  refine ⟨(length_eraseDups_concat_le _ _).trans hnames, fun s => ?_⟩
  have hs := hkeys s
  rw [callsFor_concat] at hs
  split_ifs at hs
  · rw [List.map_append, List.map_singleton] at hs
    exact (length_eraseDups_concat_le _ _).trans hs
  · exact hs

/-- Where a new section and a new key have room, the call goes through. -/
lemma call_isSome (hsections : (∀ sec ∈ b.table.sections.cells, sec.name ≠ c.sectionName) →
      b.table.sections.cells.length < 2147483640)
    (hentries : ∀ sec ∈ b.table.sections.cells, sec.name = c.sectionName → (∀ e ∈ sec.entries.cells, e.key ≠ c.key) →
      sec.entries.cells.length < 2147483640) : ∃ b', b.call c = some b' := by
  unfold Built.call
  cases hfind : iniSectionFind b.table c.sectionName with
  | none =>
    obtain ⟨t, ht⟩ := (pushSection_isSome b.table c.sectionName).2
      (hsections (by simpa using List.findIdx?_eq_none_iff.1 hfind))
    have hcells := pushSection_cells ht
    obtain ⟨t', ht'⟩ := (pushEntry_isSome (t := t) hcells c.key c.value).2 (show 0 < 2147483640 by decide)
    have hi : t.sections.cells[b.table.sections.cells.length]? = some ⟨c.sectionName, .new 10 IniEntry⟩ := by simp [hcells]
    simp only [Built.sectionCreate, ht, Option.map_some, Option.bind_some, Built.createIn, hi, bind]
    exact ⟨_, by rw [show iniEntryFind ⟨c.sectionName, .new 10 IniEntry⟩ c.key = none from rfl, Built.entryCreate, ht']; rfl⟩
  | some i =>
    obtain ⟨pre, sec, post, ht, rfl, hname, -⟩ := iniSectionFind_some hfind
    have hi : b.table.sections.cells[pre.length]? = some sec := by simp [ht]
    simp only [Built.createIn, hi, bind, Option.bind_some]
    cases hkey : iniEntryFind sec c.key with
    | none =>
      obtain ⟨t', ht'⟩ := (pushEntry_isSome ht c.key c.value).2
        (hentries sec (by simp [ht]) hname (by simpa using List.findIdx?_eq_none_iff.1 hkey))
      exact ⟨_, by rw [Built.entryCreate, ht']; rfl⟩
    | some j => exact ⟨_, rfl⟩

/-- **How far a table can be built by hand.** -/
lemma build_isSome_iff (calls : List EntryCall) : (∃ b, build calls = some b) ↔ Few calls := by
  constructor
  · rintro ⟨b, h⟩
    refine ⟨?_, fun s => ?_⟩
    · rw [← names_build h, List.length_map]
      exact b.table.sections.size_le
    · by_cases hs : s ∈ b.table.sections.cells.map IniSection.name
      · obtain ⟨sec, hsec, rfl⟩ := List.mem_map.1 hs
        rw [← keys_build h hsec, List.length_map]
        exact sec.entries.size_le
      · rw [names_build h, List.mem_eraseDups] at hs
        have hnone : callsFor s calls = [] := List.filter_eq_nil_iff.2 fun c hc e =>
          hs (List.mem_map.2 ⟨c, hc, by simpa using e⟩)
        rw [hnone]
        exact Nat.zero_le _
  · intro h
    induction calls using List.reverseRecOn with
    | nil => exact ⟨_, rfl⟩
    | append_singleton calls c ih =>
      obtain ⟨b, hb⟩ := ih h.of_concat
      obtain ⟨b', hb'⟩ : ∃ b', b.call c = some b' := by
        refine call_isSome (fun hnew => ?_) fun sec hsec hname hnew => ?_
        · have hnames := h.1
          have hnot : c.sectionName ∉ calls.map EntryCall.sectionName := by
            rw [← List.mem_eraseDups, ← names_build hb]
            simpa using hnew
          rw [List.map_append, List.map_singleton, length_eraseDups_concat, if_neg hnot, ← names_build hb,
            List.length_map] at hnames
          exact hnames
        · have hkeys := h.2 c.sectionName
          have hnot : c.key ∉ (callsFor c.sectionName calls).map EntryCall.key := by
            rw [← List.mem_eraseDups, ← hname, ← keys_build hb hsec]
            simpa using hnew
          rw [callsFor_concat, if_pos rfl, List.map_append, List.map_singleton, length_eraseDups_concat, if_neg hnot,
            ← hname, ← keys_build hb hsec, List.length_map] at hkeys
          exact hkeys
      exact ⟨b', by rw [build_concat, hb, Option.bind_some, hb']⟩

/-- **A table built by hand is a finite map** exactly if its arrays do not get too large. -/
theorem finiteMap_build_iff (calls : List EntryCall) : (∃ b, build calls = some b ∧ FiniteMap calls b) ↔ Few calls := by
  rw [← build_isSome_iff]
  constructor
  · rintro ⟨b, h, -⟩
    exact ⟨b, h⟩
  · rintro ⟨b, h⟩
    exact ⟨b, h, finiteMap_build h⟩

/-- A digit as text. -/
def digit (d : ℕ) : UInt8 := UInt8.ofNat (48 + d % 10)

lemma toNat_digit (d : ℕ) : (digit d).toNat = 48 + d % 10 := by
  rw [digit, UInt8.toNat_ofNat']
  omega

/-- A number as a name, the last digit first. -/
def numberName (i : ℕ) : CString where
  val := (Nat.digits 10 i).map digit
  noNul h := by
    obtain ⟨d, -, hd⟩ := List.mem_map.1 h
    have hzero : (digit d).toNat = 0 := by rw [hd]; rfl
    rw [toNat_digit] at hzero
    omega

lemma numberName_injective : Function.Injective numberName := by
  intro i j h
  have hval : (Nat.digits 10 i).map digit = (Nat.digits 10 j).map digit := congrArg CString.val h
  have hback : ∀ n : ℕ, ((Nat.digits 10 n).map digit).map (fun b => b.toNat - 48) = Nat.digits 10 n := by
    intro n
    rw [List.map_map]
    refine (List.map_congr_left fun d hd => ?_).trans (List.map_id _)
    have hlt : d < 10 := Nat.digits_lt_base (by decide) hd
    rw [Function.comp_apply, toNat_digit, id_eq]
    omega
  exact Nat.digits.injective 10 (by rw [← hback i, hval, hback j])

/-- The call that makes the `i`-th section of a row. -/
def rowCall (i : ℕ) : EntryCall := ⟨numberName i, .ofBlock [], .ofBlock []⟩

/-- A section too many: the capacity `10 + 2147483640` that is asked for is no `int`. -/
theorem not_finiteMap_build : ¬ ∀ calls : List EntryCall, ∃ b, build calls = some b ∧ FiniteMap calls b := by
  intro h
  obtain ⟨b, hb, -⟩ := h ((List.range 2147483641).map rowCall)
  have hfew := ((build_isSome_iff _).1 ⟨b, hb⟩).1
  have hnodup : (((List.range 2147483641).map rowCall).map EntryCall.sectionName).Nodup := by
    rw [List.map_map]
    exact List.nodup_range.map numberName_injective
  rw [eraseDups_of_nodup hnodup, List.length_map, List.length_map, List.length_range] at hfew
  omega

end Few

end Wrensong.Ini
