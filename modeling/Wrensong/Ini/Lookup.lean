import Wrensong.Ini.Lexer
import Wrensong.Lib.Transition

/-!
# Lookup in a table

A lookup goes to the first section of a name and stays there. `ini_table_create_entry` asks for that section before it
creates one, the reader does not: each header starts a section, and what stands below a header that was there before is not
found, unless the first section of the name has the key too.

What a lookup sees of a table is its `outline`: the names of the sections with their keys. `Covered` says that every key is
found where its name is found first; it is what a step of a run has to keep (`lookupComplete_iff`).
-/

namespace Wrensong.Ini

open Wrensong.Lib Wrensong.Lib.Bytes Wrensong.Lib.Transition

/-! ### The lookups -/

/-- `_ini_section_find`: the index of the section, or null. -/
def iniSectionFind (t : IniTable) (name : CString) : Option ℕ := t.sections.cells.findIdx? fun s => s.name = name

/-- `_ini_entry_find`: the index of the entry, or null. -/
def iniEntryFind (s : IniSection) (key : CString) : Option ℕ := s.entries.cells.findIdx? fun e => e.key = key

/-- `_ini_entry_get`. -/
def iniEntryGet (t : IniTable) (sectionName key : CString) : Option IniEntry := do
  let s ← t.sections.cells[← iniSectionFind t sectionName]?
  s.entries.cells[← iniEntryFind s key]?

/-- `ini_table_check_entry`. -/
def iniTableCheckEntry (t : IniTable) (sectionName key : CString) : Bool := (iniEntryGet t sectionName key).isSome

/-- `ini_table_get_entry`: the value, or null. -/
def iniTableGetEntry (t : IniTable) (sectionName key : CString) : Option CString :=
  (iniEntryGet t sectionName key).map IniEntry.value

/-! ### Creating an entry -/

/-- The table with another value in the entry with the index `j` of the section with the index `i`. -/
def IniTable.setValue (t : IniTable) (i j : ℕ) (value : CString) : IniTable :=
  ⟨t.sections.modify i fun s => { s with entries := s.entries.modify j fun e => { e with value := value } }⟩

/-- `ini_table_create_entry` in the section with the index `i`. -/
def createEntryIn (t : IniTable) (i : ℕ) (key value : CString) : Option IniTable :=
  match t.sections.cells[i]?.bind (iniEntryFind · key) with
  | none => t.pushEntry i key value
  | some j => some (t.setValue i j value)

/-- `ini_table_create_entry`. There is no table behind a call that needs an array which is too large. -/
def iniTableCreateEntry (t : IniTable) (sectionName key value : CString) : Option IniTable :=
  match iniSectionFind t sectionName with
  | none => (t.pushSection sectionName).bind fun t' => createEntryIn t' t.sections.cells.length key value
  | some i => createEntryIn t i key value

/-! ### Runs on a table -/

/-- A call that changes the table. -/
inductive TableOp
  | read (input : IniIn)
  | createEntry (sectionName key value : CString)

/-- The table behind the call. A reading that goes wrong has none. -/
def TableOp.step (t : IniTable) : TableOp → Option IniTable
  | read input => (iniTableRead t input).toOption.bind fun o => o.sink.table
  | createEntry sectionName key value => iniTableCreateEntry t sectionName key value

/-- A lookup finds exactly what is in the table. -/
def LookupComplete (t : IniTable) : Prop :=
  ∀ s k, iniTableCheckEntry t s k = true ↔ ∃ sec ∈ t.sections.cells, sec.name = s ∧ ∃ e ∈ sec.entries.cells, e.key = k

/-! ### First matches -/

section Covered

variable {α β : Type*} [DecidableEq α]

/-- The first pair with the name has the key. -/
def FirstHas (os : List (α × List β)) (s : α) (k : β) : Prop := ∃ o ∈ os.find? fun o => o.1 = s, k ∈ o.2

/-- The keys of `new` are all found in `os`. -/
def Covered (os new : List (α × List β)) : Prop := ∀ o ∈ new, ∀ k ∈ o.2, FirstHas os o.1 k

instance [DecidableEq β] (os : List (α × List β)) (s : α) (k : β) : Decidable (FirstHas os s k) := by
  unfold FirstHas
  infer_instance

instance [DecidableEq β] (os new : List (α × List β)) : Decidable (Covered os new) :=
  have : DecidablePred fun o : α × List β => ∀ k ∈ o.2, FirstHas os o.1 k := fun o => List.decidableBAll _ o.2
  List.decidableBAll _ new

variable {os new pre post : List (α × List β)} {o : α × List β} {s : α} {k : β}

lemma FirstHas.append (h : FirstHas os s k) (new : List (α × List β)) : FirstHas (os ++ new) s k := by
  obtain ⟨o, ho, hk⟩ := h
  exact ⟨o, by rw [List.find?_append, ho]; rfl, hk⟩

/-- Pairs behind the others. -/
lemma covered_append (h : Covered os os) : Covered (os ++ new) (os ++ new) ↔ Covered (os ++ new) new := by
  constructor
  · exact fun hall o ho => hall o (List.mem_append_right _ ho)
  · intro hnew o ho k hk
    rcases List.mem_append.1 ho with ho | ho
    · exact (h o ho k hk).append new
    · exact hnew o ho k hk

/-- A pair with a new name. -/
lemma covered_concat (h : Covered os os) (ho : ∀ o' ∈ os, o'.1 ≠ o.1) : Covered (os ++ [o]) (os ++ [o]) := by
  refine (covered_append h).2 fun o' ho' k hk => ?_
  obtain rfl := List.mem_singleton.1 ho'
  refine ⟨o', ?_, hk⟩
  rw [List.find?_append, List.find?_eq_none.2 (by simpa using ho)]
  simp

/-- A key in the first pair with its name. -/
lemma covered_key (h : Covered (pre ++ o :: post) (pre ++ o :: post)) (ho : ∀ o' ∈ pre, o'.1 ≠ o.1) (k : β) :
    Covered (pre ++ (o.1, o.2 ++ [k]) :: post) (pre ++ (o.1, o.2 ++ [k]) :: post) := by
  have hpre : pre.find? (fun o' => o'.1 = o.1) = none := List.find?_eq_none.2 (by simpa using ho)
  have hfirst : ∀ k' ∈ o.2 ++ [k], FirstHas (pre ++ (o.1, o.2 ++ [k]) :: post) o.1 k' := by
    intro k' hk'
    refine ⟨(o.1, o.2 ++ [k]), ?_, hk'⟩
    rw [List.find?_append, hpre]
    simp
  have hlift : ∀ {s k'}, FirstHas (pre ++ o :: post) s k' → FirstHas (pre ++ (o.1, o.2 ++ [k]) :: post) s k' := by
    rintro s k' ⟨o', ho', hk'⟩
    by_cases hs : o.1 = s
    · subst hs
      rw [List.find?_append, hpre] at ho'
      simp only [Option.none_or, List.find?_cons, decide_true] at ho'
      obtain rfl := Option.some.inj ho'
      exact hfirst k' (List.mem_append_left _ hk')
    · refine ⟨o', ?_, hk'⟩
      rw [List.find?_append, List.find?_cons_of_neg (by simpa using hs)] at ho' ⊢
      exact ho'
  intro o' ho' k' hk'
  rcases List.mem_append.1 ho' with hm | hm
  · exact hlift (h o' (List.mem_append_left _ hm) k' hk')
  rcases List.mem_cons.1 hm with rfl | hm
  · exact hfirst k' hk'
  · exact hlift (h o' (List.mem_append_right _ (List.mem_cons_of_mem _ hm)) k' hk')

end Covered

/-! ### What a lookup sees -/

/-- The name of a section and its keys. -/
def keysOf (g : Group) : CString × List CString := (g.1, g.2.map Prod.fst)

/-- The names of the sections with their keys. -/
def IniTable.outline (t : IniTable) : List (CString × List CString) := t.contents.map keysOf

section Outline

variable {t : IniTable} {s k : CString}

lemma outline_eq (t : IniTable) :
    t.outline = t.sections.cells.map fun sec => (sec.name, sec.entries.cells.map IniEntry.key) := by
  simp [IniTable.outline, IniTable.contents, keysOf, Function.comp_def]

lemma iniEntryGet_eq (t : IniTable) (s k : CString) :
    iniEntryGet t s k = (t.sections.cells.find? fun sec => sec.name = s).bind fun sec =>
      sec.entries.cells.find? fun e => e.key = k := by
  simp only [List.find?_eq_bind_findIdx?_getElem?, iniEntryGet, iniSectionFind, iniEntryFind, Option.bind_assoc]
  rfl

lemma iniTableCheckEntry_iff : iniTableCheckEntry t s k = true ↔ FirstHas t.outline s k := by
  have hfind : t.outline.find? (fun o => o.1 = s) =
      (t.sections.cells.find? fun sec => sec.name = s).map fun sec => (sec.name, sec.entries.cells.map IniEntry.key) := by
    rw [outline_eq, List.find?_map]
    rfl
  rw [iniTableCheckEntry, iniEntryGet_eq, FirstHas, hfind]
  cases t.sections.cells.find? fun sec => sec.name = s with
  | none => simp
  | some sec => simp

/-- A lookup is complete when all keys of the table are covered. -/
lemma lookupComplete_iff_covered : LookupComplete t ↔ Covered t.outline t.outline := by
  have hhas : ∀ s k, (∃ sec ∈ t.sections.cells, sec.name = s ∧ ∃ e ∈ sec.entries.cells, e.key = k) ↔
      ∃ o ∈ t.outline, o.1 = s ∧ k ∈ o.2 := by
    intro s k
    rw [outline_eq]
    simp
  constructor
  · intro h o ho k hk
    rw [← iniTableCheckEntry_iff, h, hhas]
    exact ⟨o, ho, rfl, hk⟩
  · intro h s k
    rw [iniTableCheckEntry_iff, hhas]
    constructor
    · rintro ⟨o, ho, hk⟩
      exact ⟨o, List.mem_of_find?_eq_some ho, by simpa using List.find?_some ho, hk⟩
    · rintro ⟨o, ho, rfl, hk⟩
      exact h o ho k hk

/-! ### Creating an entry keeps the keys covered -/

lemma outline_setValue (t : IniTable) (i j : ℕ) (value : CString) : (t.setValue i j value).outline = t.outline := by
  rw [outline_eq, outline_eq, IniTable.setValue, GrowArray.cells_modify]
  refine GrowArray.map_modify_of_eq (fun sec => ?_) _ i
  rw [GrowArray.cells_modify, GrowArray.map_modify_of_eq (g := fun e : IniEntry => { e with value := value }) fun e => rfl]

/-- Where the section stands that a search has found. -/
lemma iniSectionFind_some {name : CString} {i : ℕ} (h : iniSectionFind t name = some i) :
    ∃ pre sec post, t.sections.cells = pre ++ sec :: post ∧ pre.length = i ∧ sec.name = name ∧
      ∀ sec' ∈ pre, sec'.name ≠ name := by
  obtain ⟨hi, hsec, hfirst⟩ := List.findIdx?_eq_some_iff_getElem.1 h
  refine ⟨t.sections.cells.take i, t.sections.cells[i], t.sections.cells.drop (i + 1), ?_, ?_, by simpa using hsec, ?_⟩
  · rw [List.getElem_cons_drop, List.take_append_drop]
  · rw [List.length_take]
    omega
  · intro sec' hsec'
    obtain ⟨j, hj, rfl⟩ := List.mem_take_iff_getElem.1 hsec'
    simpa using hfirst j (by omega)

/-- **An entry in the first section with its name.** -/
lemma covered_createEntryIn {t' : IniTable} {pre post : List IniSection} {sec : IniSection}
    (ht : t.sections.cells = pre ++ sec :: post) (hpre : ∀ sec' ∈ pre, sec'.name ≠ sec.name)
    (h : Covered t.outline t.outline) {key value : CString} (hc : createEntryIn t pre.length key value = some t') :
    Covered t'.outline t'.outline := by
  unfold createEntryIn at hc
  split at hc
  · obtain ⟨sec', hcells, hname, hentries⟩ := pushEntry_cells ht hc
    have hpush : t'.outline = (pre.map fun s => (s.name, s.entries.cells.map IniEntry.key)) ++
        (sec.name, sec.entries.cells.map IniEntry.key ++ [key]) ::
          post.map fun s => (s.name, s.entries.cells.map IniEntry.key) := by
      rw [outline_eq, hcells, List.map_append, List.map_cons, hname, hentries, List.map_append, List.map_singleton]
    rw [outline_eq, ht, List.map_append, List.map_cons] at h
    rw [hpush]
    exact covered_key h (by simpa using hpre) key
  · cases hc
    rw [outline_setValue]
    exact h

lemma covered_iniTableCreateEntry {t' : IniTable} (h : Covered t.outline t.outline) {s key value : CString}
    (hc : iniTableCreateEntry t s key value = some t') : Covered t'.outline t'.outline := by
  unfold iniTableCreateEntry at hc
  split at hc
  · -- the new section stands at the end, and no other has its name
    rename_i hnone
    have hnew : ∀ sec ∈ t.sections.cells, sec.name ≠ s := by simpa using List.findIdx?_eq_none_iff.1 hnone
    obtain ⟨t1, hpush, hc⟩ := Option.bind_eq_some_iff.1 hc
    refine covered_createEntryIn (pushSection_cells hpush) hnew ?_ hc
    have hout : t1.outline = t.outline ++ [(s, [])] := by
      rw [outline_eq, pushSection_cells hpush, outline_eq, List.map_append]
      rfl
    rw [hout]
    refine covered_concat h ?_
    rw [outline_eq]
    simpa using hnew
  · rename_i i hsome
    obtain ⟨pre, sec, post, ht, rfl, hname, hpre⟩ := iniSectionFind_some hsome
    exact covered_createEntryIn ht (by rwa [hname]) h hc

end Outline

/-! ### Runs -/

/-- Each key of the text is one that the first section of its name has, be it in the table or in the text. A call that
creates an entry always finds that section. -/
def TableOp.CoversKeys (t : IniTable) : TableOp → Prop
  | .read input =>
      Covered (t.outline ++ (groups (events input.data)).map keysOf) ((groups (events input.data)).map keysOf)
  | .createEntry _ _ _ => True

instance (t : IniTable) : DecidablePred (TableOp.CoversKeys t)
  | .read _ => inferInstanceAs (Decidable (Covered _ _))
  | .createEntry _ _ _ => inferInstanceAs (Decidable True)

/-- The text of a reading keeps the counters and the sizes in their types. -/
def TableOp.InRange (t : IniTable) : TableOp → Prop
  | .read input => Ini.InRange t.sections.cells.length input.data
  | .createEntry _ _ _ => True

instance (t : IniTable) : DecidablePred (TableOp.InRange t)
  | .read _ => inferInstanceAs (Decidable (Ini.InRange _ _))
  | .createEntry _ _ _ => inferInstanceAs (Decidable True)

/-- **One call.** -/
lemma lookupComplete_step {t t' : IniTable} {op : TableOp} (h : LookupComplete t) (hin : op.InRange t)
    (hs : op.step t = some t') : op.CoversKeys t ↔ LookupComplete t' := by
  rw [lookupComplete_iff_covered] at h ⊢
  cases op with
  | createEntry s key value => exact iff_of_true trivial (covered_iniTableCreateEntry h hs)
  | read input =>
    obtain ⟨hread, hover⟩ := iniTableRead_eq t hin
    by_cases hfit : FitsBuffer input.data
    · obtain ⟨o, u, ho, hu, hc, -⟩ := hread hfit
      obtain rfl : u = t' := by
        simpa [TableOp.step, ho, hu, Except.toOption] using hs
      have hout : u.outline = t.outline ++ (groups (events input.data)).map keysOf := by
        rw [IniTable.outline, hc, List.map_append]
        rfl
      rw [hout, covered_append h]
      rfl
    · simp [TableOp.step, hover hfit, Except.toOption] at hs

/-- **When lookups see every entry.** In all tables of a run on an empty table whose readings are in range, a lookup finds
exactly what is there, if and only if the readings of the run cover their keys. -/
theorem lookupComplete_iff {ops : List TableOp} {t : IniTable} (hin : Guarded TableOp.step TableOp.InRange iniTableCreate ops)
    (h : run TableOp.step iniTableCreate ops = some t) :
    (∀ ops' t', ops' <+: ops → run TableOp.step iniTableCreate ops' = some t' → LookupComplete t') ↔
      Guarded TableOp.step TableOp.CoversKeys iniTableCreate ops := by
  have hempty : LookupComplete iniTableCreate := lookupComplete_iff_covered.2 fun o ho => absurd ho List.not_mem_nil
  exact (guarded_iff (fun hi hp hs => lookupComplete_step hi hp hs) hempty hin h).symm

/-- A text that is read twice. -/
theorem lookupComplete_of_again :
    ∃ t, run TableOp.step iniTableCreate
        [.read ⟨bytes "[a]\nk=1\n", false⟩, .read ⟨bytes "[a]\nk=1\n", false⟩] = some t ∧ LookupComplete t := by
  obtain ⟨t, ht⟩ := Option.isSome_iff_exists.1 (show (run TableOp.step iniTableCreate
    [.read ⟨bytes "[a]\nk=1\n", false⟩, .read ⟨bytes "[a]\nk=1\n", false⟩]).isSome by decide +kernel)
  exact ⟨t, ht, (lookupComplete_iff (by decide +kernel) ht).2 (by decide +kernel) _ t List.prefix_rfl ht⟩

/-- The second text adds an entry to a section that is in the table. -/
def reload : List TableOp := [.read ⟨bytes "[a]\nk=1\n", false⟩, .read ⟨bytes "[a]\nj=2\n", false⟩]

/-- The entry that the second text adds is not found. -/
theorem not_lookupComplete :
    ¬ ∀ ops t, run TableOp.step iniTableCreate ops = some t → LookupComplete t := by
  intro h
  obtain ⟨t, ht⟩ : ∃ t, run TableOp.step iniTableCreate reload = some t :=
    Option.isSome_iff_exists.1 (by decide +kernel)
  have hcheck : (run TableOp.step iniTableCreate reload).map (fun t =>
      iniTableCheckEntry t (.ofBlock (bytes "a")) (.ofBlock (bytes "j"))) = some false := by decide +kernel
  have hthere : (run TableOp.step iniTableCreate reload).map (fun t => decide (∃ sec ∈ t.sections.cells,
      sec.name = .ofBlock (bytes "a") ∧ ∃ e ∈ sec.entries.cells, e.key = .ofBlock (bytes "j"))) = some true := by
    decide +kernel
  rw [ht, Option.map_some, Option.some.injEq] at hcheck hthere
  have hfound := (h reload t ht (.ofBlock (bytes "a")) (.ofBlock (bytes "j"))).2 (of_decide_eq_true hthere)
  rw [hcheck] at hfound
  cases hfound

end Wrensong.Ini
