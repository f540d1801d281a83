import Wrensong.Lib.Bytes
import Wrensong.Lib.GrowArray

/-!
# Tables of `tconfig.c`

The data of a configuration and the two creators `_ini_section_create` and `_ini_entry_create`. Both go one of two ways:
with a callback that has the matching function they call it and answer null, and otherwise they write to the table.
Allocations succeed. The arrays have an `int` for their size, and the creators ask for `10 + size` cells where they grow one:
this is an `int` up to the size 2147483640 (`pushSection_isSome`, `pushEntry_isSome`).
-/

namespace Wrensong.Ini

open Wrensong.Lib Wrensong.Lib.Bytes

/-- `ini_entry_s`. -/
structure IniEntry where
  key : CString
  value : CString
  deriving DecidableEq

/-- `ini_section_s`. -/
structure IniSection where
  name : CString
  entries : GrowArray 10 IniEntry
  deriving DecidableEq

/-- `ini_table_s`. -/
structure IniTable where
  sections : GrowArray 10 IniSection
  deriving DecidableEq

/-- The step by which tables and sections grow. -/
lemma growth_pos : 0 < 10 := by decide

lemma sections_grow : (GrowArray.new 10 IniSection).Grows := GrowArray.new_grows (by decide)

lemma entries_grow : (GrowArray.new 10 IniEntry).Grows := GrowArray.new_grows (by decide)

/-- `ini_table_create`. -/
def iniTableCreate : IniTable := ⟨.new 10 IniSection⟩

/-- An access or an operation that has no defined result. -/
inductive IniFault
  | overrun
  | overread
  | nullPointer
  | stalePointer
  /-- A counter of the reader leaves the type `int`. -/
  | overflow
  /-- The capacity of an array leaves the type `int`. -/
  | tooLarge
  deriving DecidableEq, Repr

/-! ### One more section, one more entry -/

/-- The table with one more section. -/
def IniTable.pushSection (t : IniTable) (name : CString) : Option IniTable :=
  if h : t.sections.Grows then some ⟨t.sections.push growth_pos h ⟨name, .new 10 IniEntry⟩⟩ else none

/-- The table with one more entry in the section with the index `i`, which is one of the table. -/
def IniTable.pushEntry (t : IniTable) (i : ℕ) (key value : CString) : Option IniTable := do
  let sec ← t.sections.cells[i]?
  if h : sec.entries.Grows then
    some ⟨t.sections.modify i fun _ => { sec with entries := sec.entries.push growth_pos h ⟨key, value⟩ }⟩
  else none

section Push

variable {t t' : IniTable} {name key value : CString} {pre post : List IniSection} {sec : IniSection}

lemma pushSection_isSome (t : IniTable) (name : CString) :
    (∃ t', t.pushSection name = some t') ↔ t.sections.cells.length < 2147483640 := by
  rw [← GrowArray.maxSize_ten, ← t.sections.grows_iff growth_pos]
  unfold IniTable.pushSection
  split_ifs with h <;> simp [h]

lemma pushSection_cells (h : t.pushSection name = some t') :
    t'.sections.cells = t.sections.cells ++ [⟨name, .new 10 IniEntry⟩] := by
  unfold IniTable.pushSection at h
  split_ifs at h
  cases h
  rfl

lemma pushEntry_isSome (ht : t.sections.cells = pre ++ sec :: post) (key value : CString) :
    (∃ t', t.pushEntry pre.length key value = some t') ↔ sec.entries.cells.length < 2147483640 := by
  have hi : t.sections.cells[pre.length]? = some sec := by simp [ht]
  rw [← GrowArray.maxSize_ten, ← sec.entries.grows_iff growth_pos]
  unfold IniTable.pushEntry
  rw [hi]
  simp only [bind, Option.bind_some]
  split_ifs with h <;> simp [h]

/-- The entry stands behind the others of its section. -/
lemma pushEntry_cells (ht : t.sections.cells = pre ++ sec :: post) (h : t.pushEntry pre.length key value = some t') :
    ∃ sec' : IniSection, t'.sections.cells = pre ++ sec' :: post ∧ sec'.name = sec.name ∧
      sec'.entries.cells = sec.entries.cells ++ [⟨key, value⟩] := by
  have hi : t.sections.cells[pre.length]? = some sec := by simp [ht]
  unfold IniTable.pushEntry at h
  rw [hi] at h
  simp only [bind, Option.bind_some] at h
  split_ifs at h with hgrows
  cases h
  refine ⟨{ sec with entries := sec.entries.push growth_pos hgrows ⟨key, value⟩ }, ?_, rfl, rfl⟩
  rw [GrowArray.cells_modify, ht, GrowArray.modify_append_cons]

end Push

/-! ### The creators -/

/-- Which functions of an `ini_callback_s` are supplied. -/
structure IniCallback where
  set : Bool
  create : Bool
  deriving DecidableEq

/-- A call of a callback function. -/
inductive Call
  | create (name : CString)
  | set (key value : CString)
  deriving DecidableEq

/-- What a reader writes to: the table, or null, and the calls so far. -/
structure Sink where
  table : Option IniTable
  calls : List Call := []
  deriving DecidableEq

/-- `_ini_section_create`: the index of the new section, or null. -/
def iniSectionCreate (call : Option IniCallback) (s : Sink) (name : CString) : Except IniFault (Sink × Option ℕ) :=
  if (call.map IniCallback.create).getD false then
    pure ({ s with calls := s.calls ++ [.create name] }, none)
  else
    match s.table with
    | none => throw .nullPointer
    | some t =>
      match t.pushSection name with
      | some t' => pure ({ s with table := some t' }, some t.sections.cells.length)
      | none => throw .tooLarge

/-- `_ini_entry_create` in the section with the index `i`, or in null. -/
def iniEntryCreate (call : Option IniCallback) (s : Sink) (i : Option ℕ) (key value : CString) : Except IniFault Sink :=
  if (call.map IniCallback.set).getD false then
    pure { s with calls := s.calls ++ [.set key value] }
  else
    match s.table, i with
    | some t, some i =>
      match t.pushEntry i key value with
      | some t' => pure { s with table := some t' }
      | none => throw .tooLarge
    | _, _ => throw .nullPointer

/-- What a table says, without the capacities: for each section its name and its keys and values. -/
def IniTable.contents (t : IniTable) : List (CString × List (CString × CString)) :=
  t.sections.cells.map fun sec => (sec.name, sec.entries.cells.map fun e => (e.key, e.value))

end Wrensong.Ini
