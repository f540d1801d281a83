import Wrensong.Lib.Probe

/-!
# The hash table of a map

The entries are an array with open addressing. An entry whose key is `undefined` is empty if its value is `false`, and else
a tombstone. The functions are those of the machine, over any representation of its values; there is no result where one
would follow a pointer that is not set.

`findEntry_eq` says that a search is the one of `Lib.Probe` on the slots that the entries stand for, and so are the other
functions.
-/

namespace Wrensong.Wren

open Wrensong.Lib Wrensong.Lib.Probe

/-- What a map uses of the values. -/
structure Representation (V : Type) where
  undefined : V
  null : V
  ofBool : Bool → V
  hashValue : V → UInt32
  valuesEqual : V → V → Bool
  ofBool_injective : Function.Injective ofBool

/-- `MapEntry` -/
structure Entry (V : Type) where
  key : V
  value : V
  deriving DecidableEq

/-- `ObjMap` -/
structure Table (V : Type) where
  capacity : UInt32 := 0
  count : UInt32 := 0
  entries : List (Entry V) := []
  deriving DecidableEq

/-- `MIN_CAPACITY` -/
def minCapacity : UInt32 := 16

/-- `GROW_FACTOR` -/
def growFactor : UInt32 := 2

/-- `MAP_LOAD_PERCENT` -/
def mapLoadPercent : UInt32 := 75

section Functions

variable {V : Type} [DecidableEq V] (r : Representation V)

/-- The loop of `findEntry`, for at most `n` more entries. -/
def findEntryFrom (entries : List (Entry V)) (capacity : UInt32) (key : V) (startIndex : UInt32) :
    ℕ → UInt32 → Option ℕ → Option Place
  | 0, _, _ => none
  | n + 1, index, tombstone =>
    match entries[index.toNat]? with
    | none => none
    | some entry =>
      let next := fun tombstone =>
        let index := (index + 1) % capacity
        if index ≠ startIndex then findEntryFrom entries capacity key startIndex n index tombstone
        else some (.missing tombstone)
      if entry.key = r.undefined then
        if entry.value = r.ofBool false then some (.missing (tombstone.or (some index.toNat)))
        else next (tombstone.or (some index.toNat))
      else if r.valuesEqual entry.key key then some (.found index.toNat)
      else next tombstone

/-- `findEntry`. A place that is missing is the null pointer. -/
def findEntry (entries : List (Entry V)) (capacity : UInt32) (key : V) : Option Place :=
  if capacity = 0 then some (.missing none)
  else
    let startIndex := r.hashValue key % capacity
    findEntryFrom r entries capacity key startIndex capacity.toNat startIndex none

/-- `insertEntry`: the entries, and whether the key is new. -/
def insertEntry (entries : List (Entry V)) (capacity : UInt32) (key value : V) : Option (List (Entry V) × Bool) :=
  match findEntry r entries capacity key with
  | some (.found i) => entries[i]?.map fun entry => (entries.set i { entry with value := value }, false)
  | some (.missing (some i)) => some (entries.set i ⟨key, value⟩, true)
  | _ => none

/-- The loop of `resizeMap` over the old entries. -/
def addEntries (capacity : UInt32) : List (Entry V) → List (Entry V) → Option (List (Entry V))
  | entries, [] => some entries
  | entries, entry :: old =>
    if entry.key = r.undefined then addEntries capacity entries old
    else (insertEntry r entries capacity entry.key entry.value).bind fun p => addEntries capacity p.1 old

/-- `resizeMap` -/
def resizeMap (map : Table V) (capacity : UInt32) : Option (Table V) :=
  (addEntries r capacity (List.replicate capacity.toNat ⟨r.undefined, r.ofBool false⟩) map.entries).map fun entries =>
    { map with entries := entries, capacity := capacity }

/-- `wrenMapGet` -/
def wrenMapGet (map : Table V) (key : V) : Option V :=
  match findEntry r map.entries map.capacity key with
  | some (.found i) => map.entries[i]?.map Entry.value
  | some (.missing _) => some r.undefined
  | none => none

/-- The capacity that a map is resized to. -/
def atLeastMin (capacity : UInt32) : UInt32 := if capacity < minCapacity then minCapacity else capacity

/-- `wrenMapSet`, up to the insertion: if the map is getting too full, it makes room. -/
def makeRoom (map : Table V) : Option (Table V) :=
  if map.count + 1 > map.capacity * mapLoadPercent / 100 then
    resizeMap r map (atLeastMin (map.capacity * growFactor))
  else some map

/-- `wrenMapSet` -/
def wrenMapSet (map : Table V) (key value : V) : Option (Table V) := do
  let map ← makeRoom r map
  let (entries, isNew) ← insertEntry r map.entries map.capacity key value
  pure { map with entries := entries, count := if isNew then map.count + 1 else map.count }

/-- `wrenMapClear` -/
def wrenMapClear (_ : Table V) : Table V := {}

/-- `wrenMapRemoveKey`, behind the removal: an empty map has no array, and a map that is getting empty shrinks. -/
def giveBack (map : Table V) : Option (Table V) :=
  if map.count = 0 then some (wrenMapClear map)
  else if map.capacity > minCapacity ∧ map.count < map.capacity / growFactor * mapLoadPercent / 100 then
    resizeMap r map (atLeastMin (map.capacity / growFactor))
  else some map

/-- `wrenMapRemoveKey` -/
def wrenMapRemoveKey (map : Table V) (key : V) : Option (Table V × V) :=
  match findEntry r map.entries map.capacity key with
  | some (.missing _) => some (map, r.null)
  | none => none
  | some (.found i) => do
    let entry ← map.entries[i]?
    let map ← giveBack r
      { map with entries := map.entries.set i ⟨r.undefined, r.ofBool true⟩, count := map.count - 1 }
    pure (map, entry.value)

/-- The slot that an entry stands for. -/
def Entry.slot (entry : Entry V) : Slot V V :=
  if entry.key = r.undefined then if entry.value = r.ofBool false then .empty else .tombstone
  else .full entry.key entry.value

end Functions

/-! ### The entries as slots -/

section Slots

variable {V : Type} [DecidableEq V] {r : Representation V} {entries : List (Entry V)} {capacity : UInt32} {key : V} {i : ℕ}
  {e : Entry V}

/-- The hash of the library. -/
def Representation.hash (r : Representation V) (k : V) : ℕ := (r.hashValue k).toNat

lemma getElem?_slots (he : entries[i]? = some e) : (entries.map (Entry.slot r))[i]? = some (e.slot r) := by
  rw [List.getElem?_map, he]
  rfl

lemma slot_of_undefined (hk : e.key = r.undefined) :
    e.slot r = if e.value = r.ofBool false then .empty else .tombstone := if_pos hk

lemma slot_of_used (hk : e.key ≠ r.undefined) : e.slot r = .full e.key e.value := if_neg hk

/-- The next index, and where the loop ends. -/
lemma next_index {c start j : ℕ} (hc : c = capacity.toNat) (hs : start < c) (hj : j < c) :
    (UInt32.ofNat ((start + j) % c) + 1) % capacity = .ofNat ((start + (j + 1)) % c) ∧
      (UInt32.ofNat ((start + (j + 1)) % c) = .ofNat start ↔ j + 1 = c) := by
  have hlt : c < 2 ^ 32 := hc ▸ capacity.toNat_lt
  have hpos : 0 < c := by omega
  have hx : (start + j) % c < c := Nat.mod_lt _ hpos
  have hy : (start + (j + 1)) % c < c := Nat.mod_lt _ hpos
  have hofNat : ∀ x < c, (UInt32.ofNat x).toNat = x := fun x hx => UInt32.toNat_ofNat_of_lt' (lt_trans hx hlt)
  constructor
  · apply UInt32.toNat_inj.1
    rw [UInt32.toNat_mod, UInt32.toNat_add, ← hc, hofNat _ hx, hofNat _ hy, UInt32.toNat_one,
      Nat.mod_eq_of_lt (by omega : (start + j) % c + 1 < 2 ^ 32), Nat.mod_add_mod, Nat.add_assoc]
  · rw [← UInt32.toNat_inj, hofNat _ hy, hofNat _ hs]
    constructor
    · intro h
      by_contra hne
      rcases lt_or_ge (start + (j + 1)) c with hlt' | hge
      · rw [Nat.mod_eq_of_lt hlt'] at h
        omega
      · rw [Nat.mod_eq_sub_mod hge, Nat.mod_eq_of_lt (by omega)] at h
        omega
    · intro h
      rw [h, Nat.add_mod_right, Nat.mod_eq_of_lt hs]

/-- The loop of `findEntry` is a search. -/
lemma findEntryFrom_eq {c start j n : ℕ} (key : V) (hlen : entries.length = c) (hc : c = capacity.toNat) (hs : start < c)
    (hj : j < c) (hn : c ≤ n + j) (tombstone : Option ℕ) :
    findEntryFrom r entries capacity key (.ofNat start) n (.ofNat ((start + j) % c)) tombstone =
      some (search r.valuesEqual (entries.map (Entry.slot r)) key
        (((List.range c).drop j).map fun i => (start + i) % c) tombstone) := by
  induction n generalizing j tombstone with
  | zero => omega
  | succ n ih =>
    have hlt : c < 2 ^ 32 := hc ▸ capacity.toNat_lt
    have hx : (start + j) % c < c := Nat.mod_lt _ (by omega)
    have hindex : (UInt32.ofNat ((start + j) % c)).toNat = (start + j) % c := by
      rw [UInt32.toNat_ofNat', Nat.mod_eq_of_lt (by omega)]
    obtain ⟨hnext, hend⟩ := next_index hc hs hj
    obtain ⟨entry, he⟩ : ∃ entry, entries[(start + j) % c]? = some entry :=
      ⟨_, List.getElem?_eq_getElem (hlen ▸ hx)⟩
    have hdrop : (List.range c).drop j = j :: (List.range c).drop (j + 1) := by
      rw [List.drop_eq_getElem_cons (by simpa using hj), List.getElem_range]
    -- behind the entry
    have hloop : ∀ tombstone, (if (UInt32.ofNat ((start + (j + 1)) % c)) ≠ .ofNat start
        then findEntryFrom r entries capacity key (.ofNat start) n (.ofNat ((start + (j + 1)) % c)) tombstone
        else some (.missing tombstone)) = some (search r.valuesEqual (entries.map (Entry.slot r)) key
          (((List.range c).drop (j + 1)).map fun i => (start + i) % c) tombstone) := by
      intro tombstone
      split_ifs with hne
      · have hj' : j + 1 ≠ c := fun e => hne (hend.2 e)
        exact ih (by omega) (by omega) tombstone
      · have hj' : j + 1 = c := hend.1 (not_not.1 hne)
        rw [hj', List.drop_of_length_le (by simp)]
        rfl
    rw [hdrop, List.map_cons]
    unfold findEntryFrom search
    simp only [hindex, he, hnext, getElem?_slots (r := r) he]
    by_cases hk : entry.key = r.undefined
    · by_cases hv : entry.value = r.ofBool false
      · simp [slot_of_undefined hk, hk, hv]
      · simp only [slot_of_undefined hk, hk, hv, if_true, if_false]
        exact hloop _
    · simp only [slot_of_used hk, hk, if_false]
      by_cases heq : r.valuesEqual entry.key key = true
      · simp [heq]
      · simp only [heq]
        exact hloop _

/-- **`findEntry`** is the search of the library. -/
lemma findEntry_eq (hlen : entries.length = capacity.toNat) :
    findEntry r entries capacity key = some (find r.valuesEqual r.hash (entries.map (Entry.slot r)) key) := by
  unfold findEntry find
  split_ifs with hc
  · have : entries = [] := List.length_eq_zero_iff.1 (by rw [hlen, hc]; rfl)
    rw [this]
    rfl
  · have hpos : 0 < capacity.toNat := by
      rw [Nat.pos_iff_ne_zero]
      exact fun e => hc (UInt32.toNat_inj.1 e)
    have hs : (r.hashValue key).toNat % capacity.toNat < capacity.toNat := Nat.mod_lt _ hpos
    have hstart : r.hashValue key % capacity = .ofNat ((r.hashValue key).toNat % capacity.toNat) := by
      rw [← UInt32.toNat_mod, UInt32.ofNat_toNat]
    have h := findEntryFrom_eq (r := r) key hlen rfl hs hpos (by omega : capacity.toNat ≤ capacity.toNat + 0) none
    rw [Nat.add_zero, Nat.mod_eq_of_lt hs, ← hstart, List.drop_zero] at h
    rw [h, List.length_map, hlen]
    unfold probes Representation.hash
    simp

end Slots

end Wrensong.Wren
