import Wrensong.Lib.Transition
import Wrensong.Wren.Table
import Wrensong.Wren.Map

/-!
# A map is a partial function

`Keeps r K map f` is the invariant of a map: its entries represent `f`, its count is the number of keys, its capacity is
zero or a power of two, and at most three quarters of the entries are in use. Every operation keeps it (`Keeps.set`,
`Keeps.removeKey`), as long as a key is not added to a map with 32212254 keys: from there on
`capacity * MAP_LOAD_PERCENT` and then `capacity * GROW_FACTOR` do not fit in 32 bits.
-/

namespace Wrensong.Wren

open Wrensong.Lib Wrensong.Lib.Probe

section Entries

variable {V : Type} [DecidableEq V] {r : Representation V} {entries old : List (Entry V)} {capacity : UInt32} {key value : V}
  {t' : List (Slot V V)} {i : ℕ} {e : Entry V}

/-- A slot with a key is an entry with the key. -/
lemma slot_full {k v : V} (h : (entries.map (Entry.slot r))[i]? = some (.full k v)) :
    entries[i]? = some ⟨k, v⟩ ∧ k ≠ r.undefined := by
  rw [List.getElem?_map, Option.map_eq_some_iff] at h
  obtain ⟨e, he, hs⟩ := h
  by_cases hk : e.key = r.undefined
  · rw [slot_of_undefined hk] at hs
    split_ifs at hs
  · rw [slot_of_used hk] at hs
    cases hs
    exact ⟨he, hk⟩

/-- **`insertEntry`** is `put`, and its second result says whether one key more is in the table. -/
lemma insertEntry_put (hlen : entries.length = capacity.toNat) (hk : key ≠ r.undefined)
    (h : Probe.put r.valuesEqual r.hash (entries.map (Entry.slot r)) key value = some t') :
    ∃ entries' isNew, insertEntry r entries capacity key value = some (entries', isNew) ∧
      entries'.map (Entry.slot r) = t' ∧ entries'.length = entries.length ∧
      used t' = used (entries.map (Entry.slot r)) + if isNew then 1 else 0 := by
  unfold insertEntry
  rw [findEntry_eq hlen]
  unfold Probe.put at h
  split at h
  · rename_i i hf
    rw [hf]
    obtain ⟨k', v', hi, -⟩ := search_found hf
    obtain ⟨he, hk'⟩ := slot_full hi
    rw [hi] at h
    cases h
    have hslot : (⟨k', value⟩ : Entry V).slot r = .full k' value := slot_of_used hk'
    refine ⟨entries.set i ⟨k', value⟩, false, by simp only [he, Option.map_some], ?_, List.length_set, ?_⟩
    · rw [List.map_set, hslot]
    · have := used_set (s := .full k' value) hi
      simpa [Slot.isFull] using this
  · rename_i place hf
    rw [hf]
    obtain ⟨i, rfl, rfl⟩ := Option.map_eq_some_iff.1 h
    have hslot : (⟨key, value⟩ : Entry V).slot r = .full key value := slot_of_used hk
    refine ⟨entries.set i ⟨key, value⟩, true, rfl, ?_, List.length_set, ?_⟩
    · rw [List.map_set, hslot]
    · rcases search_place hf with hp | ⟨-, hfree⟩
      · cases hp
      · rcases hfree with hfree | hfree
        all_goals
          have := used_set (s := .full key value) hfree
          simpa [Slot.isFull] using this

/-- The loop of `resizeMap` puts the pairs of the old entries. -/
lemma addEntries_eq (hlen : entries.length = capacity.toNat)
    (h : putAll r.valuesEqual r.hash (entries.map (Entry.slot r)) (live (old.map (Entry.slot r))) = some t') :
    ∃ entries', addEntries r capacity entries old = some entries' ∧ entries'.map (Entry.slot r) = t' ∧
      entries'.length = entries.length := by
  induction old generalizing entries with
  | nil =>
    cases h
    exact ⟨entries, rfl, rfl, rfl⟩
  | cons e old ih =>
    unfold addEntries
    by_cases hk : e.key = r.undefined
    · have hlive : live ((e :: old).map (Entry.slot r)) = live (old.map (Entry.slot r)) := by
        rw [List.map_cons, slot_of_undefined hk]
        split_ifs <;> rfl
      rw [hlive] at h
      rw [if_pos hk]
      exact ih hlen h
    · have hlive : live ((e :: old).map (Entry.slot r)) = (e.key, e.value) :: live (old.map (Entry.slot r)) := by
        rw [List.map_cons, slot_of_used hk]
        rfl
      rw [hlive] at h
      obtain ⟨t1, ht1, h⟩ := Option.bind_eq_some_iff.1 h
      obtain ⟨entries1, isNew, hins, rfl, hlen1, -⟩ := insertEntry_put hlen hk ht1
      obtain ⟨entries', hadd, hmap, hlen'⟩ := ih (hlen1.trans hlen) h
      rw [if_neg hk, hins]
      exact ⟨entries', hadd, hmap, hlen'.trans hlen1⟩

end Entries

/-! ### The invariant -/

/-- The table represents `f` on the keys in `K`. -/
structure Keeps {V : Type} [DecidableEq V] (r : Representation V) (K : V → Prop) (map : Table V) (f : V → Option V) : Prop where
  length_eq : map.entries.length = map.capacity.toNat
  stores : Stores r.valuesEqual r.hash K (map.entries.map (Entry.slot r)) f
  count_eq : map.count.toNat = used (map.entries.map (Entry.slot r))
  capacity : map.capacity = 0 ∨ ∃ k, 4 ≤ k ∧ k ≤ 30 ∧ map.capacity.toNat = 2 ^ k
  load : map.count.toNat * 100 ≤ map.capacity.toNat * 75

section Operations

variable {V : Type} [DecidableEq V] {r : Representation V} {K : V → Prop} {map : Table V} {f f' : V → Option V}
  {key value : V}

lemma slots_replicate (r : Representation V) (n : ℕ) :
    (List.replicate n (⟨r.undefined, r.ofBool false⟩ : Entry V)).map (Entry.slot r) = List.replicate n .empty := by
  rw [List.map_replicate, slot_of_undefined rfl, if_pos rfl]

lemma keeps_empty : Keeps r K ({} : Table V) fun _ => none :=
  ⟨rfl, stores_empty 0, rfl, Or.inl rfl, le_rfl⟩

lemma Keeps.congr (h : Keeps r K map f) (he : ∀ k, K k → f k = f' k) : Keeps r K map f' :=
  { h with stores := ⟨h.stores.toProbed, fun hk => by rw [h.stores.holds hk, he _ hk]⟩ }

/-- **`resizeMap`** keeps what the map represents. -/
lemma Keeps.resize (hc : Coherent r.valuesEqual r.hash K) (h : Keeps r K map f) {capacity : UInt32} {k : ℕ} (hk : 4 ≤ k)
    (hk' : k ≤ 30) (hcap : capacity.toNat = 2 ^ k) (hload : map.count.toNat * 100 ≤ capacity.toNat * 75) :
    ∃ map', resizeMap r map capacity = some map' ∧ Keeps r K map' f ∧ map'.count = map.count ∧
      map'.capacity = capacity := by
  have hle : used (map.entries.map (Entry.slot r)) ≤ capacity.toNat := by
    have := h.count_eq
    omega
  obtain ⟨t', hput, hs, hlen, hused⟩ := h.stores.rehash hc hle
  rw [← slots_replicate r] at hput
  obtain ⟨entries, hadd, rfl, hlen'⟩ := addEntries_eq (by rw [List.length_replicate]) hput
  refine ⟨{ map with entries := entries, capacity := capacity }, ?_, ?_, rfl, rfl⟩
  · rw [resizeMap, hadd]
    rfl
  · exact ⟨by rw [← hlen, List.length_map], hs, h.count_eq.trans hused.symm, Or.inr ⟨k, hk, hk', hcap⟩, hload⟩

/-- **`wrenMapGet`** -/
lemma Keeps.get (hc : Coherent r.valuesEqual r.hash K) (h : Keeps r K map f) (hk : K key) :
    wrenMapGet r map key = some ((f key).getD r.undefined) := by
  unfold wrenMapGet
  rw [findEntry_eq h.length_eq]
  rcases hf : find r.valuesEqual r.hash (map.entries.map (Entry.slot r)) key with i | place
  · obtain ⟨k', v, hi, he⟩ := search_found hf
    rw [(h.stores.holds hk).1 ⟨i, k', hi, he⟩]
    simp only [(slot_full hi).1]
    rfl
  · rcases hv : f key with _ | v
    · rfl
    · exact absurd ((h.stores.holds hk).2 hv) (h.stores.toProbed.not_holds hc hk hf)

/-! ### The capacity -/

/-- What the percentage gives in 32 bits is never more than what it should. -/
lemma load_le (c : UInt32) : (c * mapLoadPercent / 100).toNat * 100 ≤ c.toNat * 75 := by
  have hmod : (c * mapLoadPercent).toNat ≤ c.toNat * 75 := by
    rw [UInt32.toNat_mul]
    exact Nat.mod_le _ _
  rw [UInt32.toNat_div]
  exact (Nat.div_mul_le_self _ _).trans hmod

lemma toNat_atLeastMin (c : UInt32) : (atLeastMin c).toNat = if c.toNat < 16 then 16 else c.toNat := by
  have hmin : c < minCapacity ↔ c.toNat < 16 := UInt32.lt_iff_toNat_lt
  unfold atLeastMin
  simp only [hmin]
  split_ifs <;> rfl

/-- A map grows to a power of two, and never beyond 2 ^ 30. -/
lemma grow_capacity {c n : UInt32} (hc : c = 0 ∨ ∃ k, 4 ≤ k ∧ k ≤ 30 ∧ c.toNat = 2 ^ k) (hload : n.toNat * 100 ≤ c.toNat * 75)
    (hn : n.toNat < 32212254) (hgrow : n + 1 > c * mapLoadPercent / 100) :
    ∃ k, 4 ≤ k ∧ k ≤ 30 ∧ (atLeastMin (c * growFactor)).toNat = 2 ^ k ∧
      (n.toNat + 1) * 100 ≤ (atLeastMin (c * growFactor)).toNat * 75 := by
  rw [toNat_atLeastMin]
  rcases hc with rfl | ⟨k, hk, hk', hck⟩
  · simp only [UInt32.toNat_zero, Nat.zero_mul] at hload
    exact ⟨4, le_rfl, by omega, rfl, by simp; omega⟩
  · have hsucc : (n + 1).toNat = n.toNat + 1 := by
      rw [UInt32.toNat_add, UInt32.toNat_one, Nat.mod_eq_of_lt (by omega)]
    have hlt : k ≠ 30 := by
      rintro rfl
      have hload30 : (c * mapLoadPercent / 100).toNat = 32212254 := by
        rw [UInt32.toNat_div, UInt32.toNat_mul, hck]
        rfl
      have := UInt32.lt_iff_toNat_lt.1 hgrow
      omega
    have h16 : 2 ^ 4 ≤ 2 ^ k := Nat.pow_le_pow_right (by omega) hk
    have h29 : 2 ^ k ≤ 2 ^ 29 := Nat.pow_le_pow_right (by omega) (by omega)
    have hdouble : (c * growFactor).toNat = 2 ^ k * 2 := by
      rw [UInt32.toNat_mul, hck]
      exact Nat.mod_eq_of_lt (by change 2 ^ k * 2 < 2 ^ 32; omega)
    rw [hdouble, if_neg (by omega)]
    exact ⟨k + 1, by omega, by omega, (pow_succ 2 k).symm, by omega⟩

/-- A map shrinks to a power of two. -/
lemma shrink_capacity {c : UInt32} (hc : c = 0 ∨ ∃ k, 4 ≤ k ∧ k ≤ 30 ∧ c.toNat = 2 ^ k) (hmin : c > minCapacity) :
    ∃ k, 4 ≤ k ∧ k ≤ 30 ∧ (atLeastMin (c / growFactor)).toNat = 2 ^ k ∧ atLeastMin (c / growFactor) = c / growFactor := by
  have h16 : 16 < c.toNat := UInt32.lt_iff_toNat_lt.1 hmin
  rcases hc with rfl | ⟨k, hk, hk', hck⟩
  · simp at h16
  · obtain ⟨j, rfl⟩ : ∃ j, k = j + 1 := ⟨k - 1, by omega⟩
    have hj : 4 ≤ j := by
      by_contra hlt
      have : 2 ^ (j + 1) ≤ 2 ^ 4 := Nat.pow_le_pow_right (by omega) (by omega)
      omega
    have hhalf : (c / growFactor).toNat = 2 ^ j := by
      rw [UInt32.toNat_div, hck, pow_succ]
      exact Nat.mul_div_cancel _ (by decide)
    have hge : 2 ^ 4 ≤ 2 ^ j := Nat.pow_le_pow_right (by omega) hj
    have hsame : atLeastMin (c / growFactor) = c / growFactor := by
      apply UInt32.toNat_inj.1
      rw [toNat_atLeastMin, hhalf, if_neg (by omega)]
    exact ⟨j, hj, by omega, by rw [hsame, hhalf], hsame⟩

/-! ### The operations keep it -/

/-- Behind the growth a slot is free for one key more. -/
lemma Keeps.makeRoom (hc : Coherent r.valuesEqual r.hash K) (h : Keeps r K map f) (hn : map.count.toNat < 32212254) :
    ∃ map', makeRoom r map = some map' ∧ Keeps r K map' f ∧ map'.count = map.count ∧
      (map.count.toNat + 1) * 100 ≤ map'.capacity.toNat * 75 := by
  unfold Wren.makeRoom
  split_ifs with hg
  · obtain ⟨k, hk4, hk30, hcap, hload⟩ := grow_capacity h.capacity h.load hn hg
    obtain ⟨map', hres, h', hcount, hcap'⟩ := h.resize hc hk4 hk30 hcap (by omega)
    exact ⟨map', hres, h', hcount, by rw [hcap']; exact hload⟩
  · refine ⟨map, rfl, h, rfl, ?_⟩
    have hle := load_le map.capacity
    have hsucc : (map.count + 1).toNat = map.count.toNat + 1 := by
      rw [UInt32.toNat_add, UInt32.toNat_one, Nat.mod_eq_of_lt (by omega)]
    have hge := UInt32.le_iff_toNat_le.1 (UInt32.not_lt.1 hg)
    omega

/-- **`wrenMapSet`** finds a place for the key. -/
lemma Keeps.set (hc : Coherent r.valuesEqual r.hash K) (hu : ¬ K r.undefined) (h : Keeps r K map f) (hk : K key)
    (hn : map.count.toNat < 32212254) (value : V) :
    ∃ map', wrenMapSet r map key value = some map' ∧ Keeps r K map' (assign r.valuesEqual f key (some value)) := by
  have hkey : key ≠ r.undefined := fun e => hu (e ▸ hk)
  obtain ⟨map1, hgrow, h1, hcount, hroom⟩ := h.makeRoom hc hn
  have hused : used (map1.entries.map (Entry.slot r)) < (map1.entries.map (Entry.slot r)).length := by
    have := h1.count_eq
    rw [hcount] at this
    rw [List.length_map, h1.length_eq]
    omega
  obtain ⟨t', hput, hs, hlen, -⟩ := h1.stores.put hc hk hused value
  obtain ⟨entries', isNew, hins, rfl, hlen', hnew⟩ := insertEntry_put h1.length_eq hkey hput
  refine ⟨{ map1 with entries := entries', count := if isNew then map1.count + 1 else map1.count }, ?_, ?_⟩
  · simp only [wrenMapSet, hgrow, Option.bind_eq_bind, Option.bind_some, hins]
    rfl
  · have hcount' : (if isNew then map1.count + 1 else map1.count).toNat = map.count.toNat + if isNew then 1 else 0 := by
      cases isNew
      · exact congrArg _ hcount
      · change (map1.count + 1).toNat = _
        rw [hcount, UInt32.toNat_add, UInt32.toNat_one, Nat.mod_eq_of_lt (by omega)]
        rfl
    refine ⟨hlen'.trans h1.length_eq, hs, ?_, h1.capacity, ?_⟩
    · change (if isNew then map1.count + 1 else map1.count).toNat = _
      rw [hcount', hnew, ← h1.count_eq, hcount]
    · change (if isNew then map1.count + 1 else map1.count).toNat * 100 ≤ map1.capacity.toNat * 75
      rw [hcount']
      split_ifs <;> omega

/-- What is given back has no key. -/
lemma Keeps.giveBack (hc : Coherent r.valuesEqual r.hash K) (h : Keeps r K map f) :
    ∃ map', giveBack r map = some map' ∧ Keeps r K map' f := by
  unfold Wren.giveBack
  split_ifs with hzero hshrink
  · refine ⟨{}, rfl, keeps_empty.congr fun k hk => ?_⟩
    rcases hk1 : f k with _ | v
    · rfl
    · obtain ⟨p, hp, -⟩ := (h.stores.live_iff hk).1 hk1
      have hnone := h.count_eq
      rw [hzero, used_eq_length_live] at hnone
      rw [List.length_eq_zero_iff.1 hnone.symm] at hp
      cases hp
  · obtain ⟨k, hk4, hk30, hcap, hsame⟩ := shrink_capacity h.capacity hshrink.1
    have hle := load_le (map.capacity / growFactor)
    have hlt := UInt32.lt_iff_toNat_lt.1 hshrink.2
    obtain ⟨map', hres, h', -, -⟩ := h.resize hc hk4 hk30 hcap (by rw [hsame]; omega)
    exact ⟨map', hres, h'⟩
  · exact ⟨map, rfl, h⟩

/-- **`wrenMapRemoveKey`** gives the value that the key had. -/
lemma Keeps.removeKey (hc : Coherent r.valuesEqual r.hash K) (h : Keeps r K map f) (hk : K key) :
    ∃ map', wrenMapRemoveKey r map key = some (map', (f key).getD r.null) ∧
      Keeps r K map' (assign r.valuesEqual f key none) := by
  unfold wrenMapRemoveKey
  rw [findEntry_eq h.length_eq]
  rcases hf : find r.valuesEqual r.hash (map.entries.map (Entry.slot r)) key with i | place
  · obtain ⟨k', v, hi, he⟩ := search_found hf
    obtain ⟨hentry, hk'⟩ := slot_full hi
    have hv : f key = some v := (h.stores.holds hk).1 ⟨i, k', hi, he⟩
    obtain ⟨hs, hused⟩ := h.stores.erase hc hf
    have hslot : (⟨r.undefined, r.ofBool true⟩ : Entry V).slot r = .tombstone := by
      rw [slot_of_undefined rfl, if_neg]
      exact fun e => Bool.noConfusion (r.ofBool_injective e)
    have hmap : (map.entries.set i ⟨r.undefined, r.ofBool true⟩).map (Entry.slot r) =
        (map.entries.map (Entry.slot r)).set i .tombstone := by rw [List.map_set, hslot]
    rw [← hmap] at hs hused
    have hcount : (map.count - 1).toNat + 1 = map.count.toNat := by
      have := h.count_eq
      have h1 : (1 : UInt32) ≤ map.count := by
        rw [UInt32.le_iff_toNat_le, UInt32.toNat_one]
        omega
      rw [UInt32.toNat_sub_of_le _ _ h1, UInt32.toNat_one]
      omega
    have herased : Keeps r K { map with entries := map.entries.set i ⟨r.undefined, r.ofBool true⟩, count := map.count - 1 }
        (assign r.valuesEqual f key none) := by
      refine ⟨by rw [List.length_set, h.length_eq], hs, ?_, h.capacity, ?_⟩
      · have := h.count_eq
        change (map.count - 1).toNat = used ((map.entries.set i ⟨r.undefined, r.ofBool true⟩).map (Entry.slot r))
        omega
      · have := h.load
        change (map.count - 1).toNat * 100 ≤ map.capacity.toNat * 75
        omega
    obtain ⟨map', hback, h'⟩ := herased.giveBack hc
    refine ⟨map', ?_, h'⟩
    simp only [hentry, hv, Option.getD_some, Option.bind_eq_bind, Option.bind_some, hback]
    rfl
  · have hno : ∀ {v}, ¬ Holds r.valuesEqual (map.entries.map (Entry.slot r)) key v := h.stores.toProbed.not_holds hc hk hf
    have hv : f key = none := Option.eq_none_iff_forall_ne_some.2 fun v hv => hno ((h.stores.holds hk).2 hv)
    refine ⟨map, by rw [hv]; rfl, h.congr fun k hk1 => ?_⟩
    unfold assign
    split_ifs with hkk
    · refine Option.eq_none_iff_forall_ne_some.2 fun v hv1 => ?_
      obtain ⟨i, k', hi, he⟩ := (h.stores.holds hk1).2 hv1
      exact hno ⟨i, k', hi, hc.trans he (hc.symm hkk)⟩
    · rfl

end Operations

/-! ### Runs -/

/-- A call of the map. -/
inductive Op (V : Type)
  | get (key : V)
  | set (key value : V)
  | removeKey (key : V)
  | clear

def Op.key? {V : Type} : Op V → Option V
  | .get key | .set key _ | .removeKey key => some key
  | .clear => none

/-- A map and what its calls have returned. -/
structure Session (V : Type) where
  map : Table V := {}
  answers : List V := []

def Session.step {V : Type} [DecidableEq V] (r : Representation V) (s : Session V) : Op V → Option (Session V)
  | .get key => (wrenMapGet r s.map key).map fun v => { s with answers := s.answers ++ [v] }
  | .set key value => (wrenMapSet r s.map key value).map fun map => { s with map := map }
  | .removeKey key => (wrenMapRemoveKey r s.map key).map fun p => ⟨p.1, s.answers ++ [p.2]⟩
  | .clear => some { s with map := wrenMapClear s.map }

/-- A map with 32212254 keys gets no other one. -/
def Session.Fits {V : Type} (s : Session V) : Op V → Prop
  | .set _ _ => s.map.count.toNat < 32212254
  | _ => True

instance {V : Type} (s : Session V) (op : Op V) : Decidable (s.Fits op) :=
  match op with
  | .set _ _ => inferInstanceAs (Decidable (_ < _))
  | .get _ | .removeKey _ | .clear => inferInstanceAs (Decidable True)

/-- A partial function and what the calls should return. -/
structure Dictionary (V : Type) where
  f : V → Option V := fun _ => none
  answers : List V := []

def Dictionary.step {V : Type} (r : Representation V) (d : Dictionary V) : Op V → Dictionary V
  | .get key => { d with answers := d.answers ++ [(d.f key).getD r.undefined] }
  | .set key value => { d with f := assign r.valuesEqual d.f key (some value) }
  | .removeKey key => ⟨assign r.valuesEqual d.f key none, d.answers ++ [(d.f key).getD r.null]⟩
  | .clear => { d with f := fun _ => none }

/-- The calls on a partial function. -/
def Dictionary.run {V : Type} (r : Representation V) (ops : List (Op V)) : Dictionary V := ops.foldl (Dictionary.step r) {}

/-- The keys and values in the table. -/
def Table.pairs {V : Type} [DecidableEq V] (r : Representation V) (map : Table V) : List (V × V) :=
  live (map.entries.map (Entry.slot r))

/-- The pairs in the table are `f` on the keys in `K`: no key is there twice, and the count is right. -/
structure Table.Represents {V : Type} [DecidableEq V] (r : Representation V) (K : V → Prop) (map : Table V)
    (f : V → Option V) : Prop where
  apart : Apart r.valuesEqual (map.pairs r)
  keys : ∀ p ∈ map.pairs r, K p.1
  count_eq : map.count.toNat = (map.pairs r).length
  pairs_iff : ∀ {k v}, K k → (f k = some v ↔ ∃ p ∈ map.pairs r, r.valuesEqual p.1 k = true ∧ p.2 = v)

section Runs

variable {V : Type} [DecidableEq V] {r : Representation V} {K : V → Prop} {ops : List (Op V)}

lemma Keeps.represents {map : Table V} {f : V → Option V} (h : Keeps r K map f) : map.Represents r K f := by
  refine ⟨h.stores.toProbed.apart, fun p hp => ?_, h.count_eq.trans used_eq_length_live, fun hk => h.stores.live_iff hk⟩
  obtain ⟨i, hi⟩ := mem_live.1 hp
  exact h.stores.keys hi

/-- **One call.** -/
lemma Keeps.step (hc : Coherent r.valuesEqual r.hash K) (hu : ¬ K r.undefined) {s : Session V} {d : Dictionary V} {op : Op V}
    (h : Keeps r K s.map d.f) (ha : s.answers = d.answers) (hk : ∀ k ∈ op.key?, K k) (hfit : s.Fits op) :
    ∃ s', s.step r op = some s' ∧ Keeps r K s'.map (d.step r op).f ∧ s'.answers = (d.step r op).answers := by
  cases op with
  | get key =>
    refine ⟨{ s with answers := s.answers ++ [(d.f key).getD r.undefined] }, ?_, h, congrArg (· ++ [_]) ha⟩
    simp only [Session.step, h.get hc (hk key rfl), Option.map_some]
  | set key value =>
    obtain ⟨map', hset, h'⟩ := h.set hc hu (hk key rfl) hfit value
    exact ⟨{ s with map := map' }, by simp only [Session.step, hset, Option.map_some], h', ha⟩
  | removeKey key =>
    obtain ⟨map', hrem, h'⟩ := h.removeKey hc (hk key rfl)
    refine ⟨⟨map', s.answers ++ [(d.f key).getD r.null]⟩, ?_, h', congrArg (· ++ [_]) ha⟩
    simp only [Session.step, hrem, Option.map_some]
  | clear => exact ⟨_, rfl, keeps_empty, ha⟩

/-- The invariant over a run. -/
lemma keeps_of_run (hc : Coherent r.valuesEqual r.hash K) (hu : ¬ K r.undefined)
    (hk : ∀ op ∈ ops, ∀ k ∈ op.key?, K k) (hfit : Transition.Guarded (Session.step r) Session.Fits {} ops) :
    ∃ s, Transition.run (Session.step r) {} ops = some s ∧ s.answers = (Dictionary.run r ops).answers ∧
      Keeps r K s.map (Dictionary.run r ops).f := by
  have hrun : ∀ (s : Session V) (d : Dictionary V), Keeps r K s.map d.f → s.answers = d.answers →
      Transition.Guarded (Session.step r) Session.Fits s ops →
      ∃ s', Transition.run (Session.step r) s ops = some s' ∧ Keeps r K s'.map (ops.foldl (Dictionary.step r) d).f ∧
        s'.answers = (ops.foldl (Dictionary.step r) d).answers := by
    clear hfit
    induction ops with
    | nil => exact fun s d h ha _ => ⟨s, rfl, h, ha⟩
    | cons op ops ih =>
      intro s d h ha hg
      obtain ⟨s1, hstep, h1, ha1⟩ := h.step hc hu ha (hk op List.mem_cons_self) hg.1
      have hg1 : Transition.Guarded (Session.step r) Session.Fits s1 ops := by
        have := hg.2
        rwa [hstep] at this
      rw [Transition.run_cons hstep]
      exact ih (fun op' hop' => hk op' (List.mem_cons_of_mem _ hop')) s1 _ h1 ha1 hg1
  obtain ⟨s, hs, h, ha⟩ := hrun {} {} keeps_empty rfl hfit
  exact ⟨s, hs, ha, h⟩

/-- **A map is a partial function**: no run of calls fails, each call returns what it should, and the table has the keys
with their last values. -/
theorem represents_of_run (hc : Coherent r.valuesEqual r.hash K) (hu : ¬ K r.undefined)
    (hk : ∀ op ∈ ops, ∀ k ∈ op.key?, K k) (hfit : Transition.Guarded (Session.step r) Session.Fits {} ops) :
    ∃ s, Transition.run (Session.step r) {} ops = some s ∧ s.answers = (Dictionary.run r ops).answers ∧
      s.map.Represents r K (Dictionary.run r ops).f := by
  obtain ⟨s, hs, ha, h⟩ := keeps_of_run hc hu hk hfit
  exact ⟨s, hs, ha, h.represents⟩

end Runs

/-! ### What a loop over the map visits -/

section Visit

variable {hash : Value → UInt32} {eq : Value → Value → Bool} {K : Value → Prop}

/-- The values of `Value`, compared and hashed in any way. -/
def boxed (hash : Value → UInt32) (eq : Value → Value → Bool) : Representation Value where
  undefined := .undefined
  null := .null
  ofBool := .bool
  hashValue := hash
  valuesEqual := eq
  ofBool_injective := fun _ _ h => Value.bool.inj h

lemma countP_entries {entries : List (Entry Value)} :
    (entries.map fun e => (⟨e.key, e.value⟩ : MapEntry)).countP MapEntry.used =
      used (entries.map (Entry.slot (boxed hash eq))) := by
  unfold used
  rw [List.countP_map, List.countP_map]
  refine List.countP_congr fun e _ => ?_
  by_cases hk : e.key = .undefined
  · have hslot : e.slot (boxed hash eq) = if e.value = .bool false then .empty else .tombstone := slot_of_undefined hk
    simp only [Function.comp_apply, MapEntry.used, hk, hslot]
    split_ifs <;> simp [Slot.isFull]
  · have hslot : e.slot (boxed hash eq) = .full e.key e.value := slot_of_used hk
    simp [MapEntry.used, hk, hslot, Slot.isFull]

/-- The map that a table is, if its count is right and no value is `undefined`. -/
def Table.toMap (map : Table Value) (hlen : map.entries.length = map.capacity.toNat)
    (hcount : map.count.toNat = used (map.entries.map (Entry.slot (boxed hash eq))))
    (hreal : ∀ p ∈ map.pairs (boxed hash eq), p.2 ≠ .undefined) : ObjMap where
  capacity := map.capacity
  count := map.count
  entries := map.entries.map fun e => ⟨e.key, e.value⟩
  length_eq := by rw [List.length_map, hlen]
  count_eq := hcount.trans countP_entries.symm
  real := by
    intro e he hu
    obtain ⟨e, hmem, rfl⟩ := List.mem_map.1 he
    have hk : e.key ≠ .undefined := by simpa [MapEntry.used] using hu
    have hslot : e.slot (boxed hash eq) = .full e.key e.value := slot_of_used hk
    obtain ⟨i, hi⟩ := List.mem_iff_getElem?.1 hmem
    exact hreal (e.key, e.value) (mem_live.2 ⟨i, by rw [List.getElem?_map, hi, Option.map_some, hslot]⟩)

/-- The live entries of the map are the pairs of the table. -/
lemma live_toMap {map : Table Value} (hlen : map.entries.length = map.capacity.toNat)
    (hcount : map.count.toNat = used (map.entries.map (Entry.slot (boxed hash eq))))
    (hreal : ∀ p ∈ map.pairs (boxed hash eq), p.2 ≠ .undefined) :
    (map.toMap hlen hcount hreal).live = map.pairs (boxed hash eq) := by
  unfold ObjMap.live ObjMap.slots Table.pairs Probe.live Table.toMap List.reduceOption
  rw [List.map_map, List.filterMap_map, List.filterMap_map]
  refine List.filterMap_congr fun e _ => ?_
  by_cases hk : e.key = .undefined
  · have hslot : e.slot (boxed hash eq) = if e.value = .bool false then .empty else .tombstone := slot_of_undefined hk
    simp only [Function.comp_apply, MapEntry.slot, MapEntry.used, hk, hslot]
    split_ifs <;> simp_all [Slot.pair]
  · have hslot : e.slot (boxed hash eq) = .full e.key e.value := slot_of_used hk
    simp [MapEntry.slot, MapEntry.used, hk, hslot, Slot.pair]

/-- The call sets no key to `undefined`. -/
def Op.Real : Op Value → Prop
  | .set _ value => value ≠ .undefined
  | _ => True

instance (op : Op Value) : Decidable op.Real :=
  match op with
  | .set _ _ => inferInstanceAs (Decidable (_ ≠ _))
  | .get _ | .removeKey _ | .clear => inferInstanceAs (Decidable True)

/-- No value of the function is `undefined`. -/
lemma real_of_run {ops : List (Op Value)} (hreal : ∀ op ∈ ops, op.Real) {k v : Value}
    (h : (Dictionary.run (boxed hash eq) ops).f k = some v) : v ≠ .undefined := by
  have hstep : ∀ {d : Dictionary Value} {op : Op Value}, op.Real → (∀ k v, d.f k = some v → v ≠ .undefined) →
      ∀ k v, (d.step (boxed hash eq) op).f k = some v → v ≠ .undefined := by
    intro d op hop hd k v hkv
    cases op with
    | get key => exact hd k v hkv
    | set key value =>
      simp only [Dictionary.step, assign] at hkv
      split_ifs at hkv
      · cases hkv
        exact hop
      · exact hd k v hkv
    | removeKey key =>
      simp only [Dictionary.step, assign] at hkv
      split_ifs at hkv
      exact hd k v hkv
    | clear => cases hkv
  have hrun : ∀ d : Dictionary Value, (∀ k v, d.f k = some v → v ≠ .undefined) →
      ∀ k v, (ops.foldl (Dictionary.step (boxed hash eq)) d).f k = some v → v ≠ .undefined := by
    clear h
    induction ops with
    | nil => exact fun d hd => hd
    | cons op ops ih =>
      exact fun d hd => ih (fun op' hop' => hreal op' (List.mem_cons_of_mem _ hop')) _
        (hstep (hreal op List.mem_cons_self) hd)
  exact hrun {} (fun k v h => by cases h) k v h

/-- **A loop over a map** visits each key that the calls have left in it once, with its last value, and nothing else. -/
theorem loop_of_run {ops : List (Op Value)} (hc : Coherent eq (boxed hash eq).hash K) (hu : ¬ K .undefined)
    (hk : ∀ op ∈ ops, ∀ k ∈ op.key?, K k) (hreal : ∀ op ∈ ops, op.Real)
    (hfit : Transition.Guarded (Session.step (boxed hash eq)) Session.Fits {} ops) :
    ∃ s m, Transition.run (Session.step (boxed hash eq)) {} ops = some s ∧
      m.capacity = s.map.capacity ∧ m.count = s.map.count ∧ m.entries = s.map.entries.map (fun e => ⟨e.key, e.value⟩) ∧
      ∀ n, m.capacity.toNat < n → ∃ ps, forEach m n .null = some ps ∧ Apart eq ps ∧
        (∀ p ∈ ps, K p.1 ∧ (Dictionary.run (boxed hash eq) ops).f p.1 = some p.2) ∧
        ∀ k, K k → ∀ v, (Dictionary.run (boxed hash eq) ops).f k = some v ↔ ∃ p ∈ ps, eq p.1 k = true ∧ p.2 = v := by
  obtain ⟨s, hs, -, h⟩ := keeps_of_run hc hu hk hfit
  have hrep := h.represents
  have hmem : ∀ p ∈ s.map.pairs (boxed hash eq), (Dictionary.run (boxed hash eq) ops).f p.1 = some p.2 := fun p hp =>
    (hrep.pairs_iff (hrep.keys p hp)).2 ⟨p, hp, hc.refl p.1, rfl⟩
  have hpairs : ∀ p ∈ s.map.pairs (boxed hash eq), p.2 ≠ .undefined := fun p hp => real_of_run hreal (hmem p hp)
  refine ⟨s, s.map.toMap h.length_eq h.count_eq hpairs, hs, rfl, rfl, rfl, fun n hn => ⟨_, forEach_live _ hn, ?_, ?_, ?_⟩⟩
  · rw [live_toMap]
    exact hrep.apart
  · rw [live_toMap]
    exact fun p hp => ⟨hrep.keys p hp, hmem p hp⟩
  · intro k hkk v
    rw [live_toMap]
    exact hrep.pairs_iff hkk

end Visit

end Wrensong.Wren
