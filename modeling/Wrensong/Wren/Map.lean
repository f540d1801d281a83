import Wrensong.Lib.Iterator
import Mathlib.Data.Rat.Floor

/-!
# Maps and the iteration of the language

A map is an array of entries with a capacity and a count; an entry whose key is `undefined` is empty or a tombstone.
`mapIterate`, `mapKeyIteratorValue` and `mapValueIteratorValue` are the primitives that a `for` statement calls, and
`forEach` is the statement. `forEach_live` says that it visits the entries in use in the order of the array.
-/

namespace Wrensong.Wren

open Wrensong.Lib

/-- A value. The numbers are finite; an object is its address. -/
inductive Value
  | undefined
  | null
  | bool (b : Bool)
  | num (x : ℚ)
  | obj (address : ℕ)
  deriving DecidableEq

/-- `MapEntry` -/
structure MapEntry where
  key : Value
  value : Value
  deriving DecidableEq

/-- The entry is in use. -/
def MapEntry.used (e : MapEntry) : Bool := e.key ≠ .undefined

/-- `ObjMap`. The count is the number of entries in use, and `undefined` is never the value of one of them: it never
appears as a real value. -/
structure ObjMap where
  capacity : UInt32
  count : UInt32
  entries : List MapEntry
  length_eq : entries.length = capacity.toNat
  count_eq : count.toNat = entries.countP MapEntry.used
  real : ∀ e ∈ entries, e.used = true → e.value ≠ .undefined

/-- How a primitive ends: with a value, with a runtime error, or where C does not say how. -/
inductive Result
  | value (v : Value)
  | error (message : String)
  | unspecified
  deriving DecidableEq

/-- `validateInt`: a number that is an integer, or the message. -/
def validateInt (arg : Value) (argName : String) : Except String ℤ :=
  match arg with
  | .num x => if ⌊x⌋ = x then .ok ⌊x⌋ else .error (argName ++ " must be an integer.")
  | _ => .error (argName ++ " must be a number.")

/-- `validateIndex` -/
def validateIndex (arg : Value) (count : UInt32) (argName : String) : Except String ℕ := do
  let value ← validateInt arg argName
  -- negative indices count from the end
  let value := if value < 0 then count.toNat + value else value
  if 0 ≤ value ∧ value < count.toNat then .ok value.toNat else .error (argName ++ " out of bounds.")

/-- The loop of `map_iterate`: from the index on, the first entry in use. -/
def findUsed (m : ObjMap) (index : ℕ) : Value :=
  if index < m.capacity.toNat then
    if (m.entries[index]?).any MapEntry.used then .num index else findUsed m (index + 1)
  else .bool false
termination_by m.capacity.toNat - index

/-- `map_iterate` -/
def mapIterate (m : ObjMap) (arg : Value) : Result :=
  if m.count = 0 then .value (.bool false)
  else if arg = .null then .value (findUsed m 0)
  else
    match validateInt arg "Iterator" with
    | .error message => .error message
    | .ok x =>
      if x < 0 then .value (.bool false)
      -- the conversion to `uint32_t`
      else if 2 ^ 32 ≤ x then .unspecified
      else if m.capacity.toNat ≤ x.toNat then .value (.bool false)
      else .value (findUsed m (x.toNat + 1))

/-- The body of the two primitives that read an entry. -/
def iteratorValue (part : MapEntry → Value) (m : ObjMap) (arg : Value) : Result :=
  match validateIndex arg m.capacity "Iterator" with
  | .error message => .error message
  | .ok index =>
    match m.entries[index]? with
    | none => .unspecified
    | some entry => if entry.used then .value (part entry) else .error "Invalid map iterator."

/-- `map_keyIteratorValue` -/
def mapKeyIteratorValue : ObjMap → Value → Result := iteratorValue MapEntry.key

/-- `map_valueIteratorValue` -/
def mapValueIteratorValue : ObjMap → Value → Result := iteratorValue MapEntry.value

/-- A `for` statement over a map, from an iterator on: it asks for the next iterator, stops at a false one, and reads the
key and the value. There is no result where the rounds do not suffice or a primitive fails. -/
def forEach (m : ObjMap) : ℕ → Value → Option (List (Value × Value))
  | 0, _ => none
  | n + 1, it =>
    match mapIterate m it with
    | .value (.bool false) | .value .null => some []
    | .value it =>
      match mapKeyIteratorValue m it, mapValueIteratorValue m it with
      | .value k, .value v => (forEach m n it).map fun ps => (k, v) :: ps
      | _, _ => none
    | _ => none

/-! ### The entries in use -/

/-- The key and the value of an entry in use. -/
def MapEntry.slot (e : MapEntry) : Option (Value × Value) := if e.used then some (e.key, e.value) else none

/-- The entries as slots. -/
def ObjMap.slots (m : ObjMap) : List (Option (Value × Value)) := m.entries.map MapEntry.slot

/-- The live pairs in the order of the array. -/
def ObjMap.live (m : ObjMap) : List (Value × Value) := m.slots.reduceOption

section Slots

open Iterator

variable {m : ObjMap} {i j : ℕ} {p : Value × Value}

@[simp] lemma length_slots : m.slots.length = m.capacity.toNat := by simp [ObjMap.slots, m.length_eq]

lemma slots_some (h : m.slots[i]? = some (some p)) :
    ∃ e, m.entries[i]? = some e ∧ e.used = true ∧ e.key = p.1 ∧ e.value = p.2 := by
  simp only [ObjMap.slots, List.getElem?_map, Option.map_eq_some_iff, MapEntry.slot] at h
  obtain ⟨e, he, hp⟩ := h
  split_ifs at hp with hu
  cases hp
  exact ⟨e, he, hu, rfl, rfl⟩

lemma slots_none (h : m.slots[i]? = some none) : ∃ e, m.entries[i]? = some e ∧ e.used = false := by
  simp only [ObjMap.slots, List.getElem?_map, Option.map_eq_some_iff, MapEntry.slot] at h
  obtain ⟨e, he, hp⟩ := h
  split_ifs at hp with hu
  exact ⟨e, he, by simpa using hu⟩

lemma NextUsed.lt_capacity (h : NextUsed m.slots i j p) : j < m.capacity.toNat := by simpa using h.lt

/-- Without entries in use nothing is live. -/
lemma noneUsed_of_count (h : m.count = 0) : NoneUsed m.slots i := by
  have hc : m.entries.countP MapEntry.used = 0 := by rw [← m.count_eq, h]; rfl
  intro k _ hk
  rw [length_slots, ← m.length_eq] at hk
  have hu := List.countP_eq_zero.1 hc _ (List.getElem_mem hk)
  rw [ObjMap.slots, List.getElem?_map, List.getElem?_eq_getElem hk, Option.map_some, MapEntry.slot, if_neg hu]

lemma findUsed_succ (k : ℕ) (h : m.slots[k]? = some none) : findUsed m k = findUsed m (k + 1) := by
  obtain ⟨e, he, hu⟩ := slots_none h
  have hk := (List.getElem?_eq_some_iff.1 h).1
  rw [length_slots] at hk
  rw [findUsed, if_pos hk, he, Option.any_some, if_neg (by simp [hu])]

lemma findUsed_next (h : NextUsed m.slots i j p) : findUsed m i = .num j := by
  obtain ⟨e, he, hu, -, -⟩ := slots_some h.2.1
  rw [h.eq findUsed_succ, findUsed, if_pos (NextUsed.lt_capacity h), he, Option.any_some, if_pos hu]

lemma findUsed_none (h : NoneUsed m.slots i) (hi : i ≤ m.capacity.toNat) : findUsed m i = .bool false := by
  rw [h.eq (by rwa [length_slots]) findUsed_succ, findUsed, length_slots, if_neg (lt_irrefl _)]

end Slots

/-! ### What a `for` statement visits -/

section ForEach

open Iterator

variable {m : ObjMap} {i j : ℕ} {p : Value × Value}

lemma validateInt_natCast (j : ℕ) (argName : String) : validateInt (.num j) argName = .ok j := by
  simp [validateInt]

/-- The iterator of an entry leads to the search behind it. -/
lemma mapIterate_num (hc : m.count ≠ 0) (hj : j < m.capacity.toNat) :
    mapIterate m (.num j) = .value (findUsed m (j + 1)) := by
  have hcap := m.capacity.toNat_lt
  unfold mapIterate
  rw [if_neg hc, if_neg (by simp), validateInt_natCast]
  dsimp only
  rw [if_neg (by omega), if_neg (by omega), if_neg (by omega)]
  rfl

lemma iteratorValue_num (part : MapEntry → Value) {e : MapEntry} (he : m.entries[j]? = some e) (hu : e.used = true) :
    iteratorValue part m (.num j) = .value (part e) := by
  have hj := (List.getElem?_eq_some_iff.1 he).1
  rw [m.length_eq] at hj
  have hv : validateIndex (.num j) m.capacity "Iterator" = .ok j := by
    have hnonneg : ¬ (j : ℤ) < 0 := by omega
    simp only [validateIndex, validateInt_natCast, bind, Except.bind, if_neg hnonneg]
    rw [if_pos (by omega)]
    rfl
  simp only [iteratorValue, hv, he, hu, if_true]

/-- From the search at `i` on, a `for` statement visits the entries in use from `i` on. -/
lemma forEach_from {it : Value} (hc : m.count ≠ 0) (n : ℕ) (hit : mapIterate m it = .value (findUsed m i))
    (hi : i ≤ m.capacity.toNat) (hn : m.capacity.toNat < i + n) :
    forEach m n it = some (m.slots.drop i).reduceOption := by
  induction n generalizing it i with
  | zero => omega
  | succ n ih =>
    rcases search_cases m.slots i with h | ⟨j, p, h⟩
    · rw [findUsed_none h hi] at hit
      rw [forEach, hit, h.drop]
    · have hj := NextUsed.lt_capacity h
      obtain ⟨e, he, hu, hk, hv⟩ := slots_some h.2.1
      have hle := h.1
      rw [findUsed_next h] at hit
      have hrest := ih (mapIterate_num hc hj) (by omega) (by omega)
      rw [forEach, hit]
      simp only [mapKeyIteratorValue, mapValueIteratorValue, iteratorValue_num _ he hu, hrest, h.drop, hk, hv,
        Option.map_some]

/-- **The iteration of the language** visits the live pairs in the order of the array. -/
theorem forEach_live (m : ObjMap) {n : ℕ} (hn : m.capacity.toNat < n) : forEach m n .null = some m.live := by
  by_cases hc : m.count = 0
  · obtain ⟨n, rfl⟩ : ∃ k, n = k + 1 := ⟨n - 1, by omega⟩
    have hlive : m.live = [] := (noneUsed_of_count hc (i := 0)).drop
    have hit : mapIterate m .null = .value (.bool false) := by rw [mapIterate, if_pos hc]
    rw [forEach, hit, hlive]
  · have hit : mapIterate m .null = .value (findUsed m 0) := by rw [mapIterate, if_neg hc, if_pos rfl]
    exact forEach_from hc n hit (Nat.zero_le _) (by omega)

end ForEach

end Wrensong.Wren
