import Wrensong.Wren.Map

/-!
# The map iterator of the C API

`wrenGetMapNext` keeps the index of the entry to look at next. It is an `unsigned int` in the iterator and an `int` in the
function, whose `i++` and `i + 1` have no meaning past `INT_MAX`. The last test of its loop reads the entry behind the
array, so what lies in memory there is an argument. `agrees_iff` compares the calls with the iteration of the language:
they agree exactly for the maps whose capacity is an `int`.
-/

namespace Wrensong.Wren

open Wrensong.Lib

/-- `WrenIterator` -/
structure WrenIterator where
  index : UInt32
  deriving DecidableEq

/-- `wrenNewIterator` -/
def wrenNewIterator : WrenIterator := ⟨0⟩

/-- `wrenResetIterator` -/
def wrenResetIterator (_ : WrenIterator) : WrenIterator := ⟨0⟩

/-- The slots of the API, and the maps among the objects. -/
structure VM where
  apiStack : List Value
  maps : ℕ → Option ObjMap

/-- `AS_MAP (vm->apiStack[slot])`, where there is a map. -/
def VM.mapIn (vm : VM) (slot : ℕ) : Option ObjMap :=
  match vm.apiStack[slot]? with
  | some (.obj address) => vm.maps address
  | _ => none

/-- A store to a slot. -/
def VM.setSlot (vm : VM) (slot : ℕ) (v : Value) : VM := { vm with apiStack := vm.apiStack.set slot v }

/-- `INT_MAX` -/
def intMax : ℤ := 2 ^ 31 - 1

/-- The conversion to `int`. -/
def toInt (u : UInt32) : ℤ := (u.toNat : ℤ).bmod (2 ^ 32)

/-- The conversion to `uint32_t`. -/
def toUnsigned (i : ℤ) : UInt32 := .ofNat (i % 2 ^ 32).toNat

/-- `map->entries[i]`, with the memory around the array. -/
def ObjMap.entryAt (m : ObjMap) (memory : ℤ → MapEntry) (i : ℤ) : MapEntry :=
  if 0 ≤ i then (m.entries[i.toNat]?).getD (memory i) else memory i

/-- Where the loop of `wrenGetMapNext` stops, and the entries it reads; `none` if `i++` goes past `INT_MAX`. -/
structure Scan where
  stop : Option ℤ
  touched : List ℤ

/-- One more entry was read before. -/
def Scan.after (s : Scan) (i : ℤ) : Scan := ⟨s.stop, i :: s.touched⟩

@[simp] lemma Scan.stop_after (s : Scan) (i : ℤ) : (s.after i).stop = s.stop := rfl

/-- The loop of `wrenGetMapNext`. The entry is read before the index is compared. -/
def skipEmpty (m : ObjMap) (memory : ℤ → MapEntry) (i : ℤ) : Scan :=
  if (m.entryAt memory i).used = false ∧ toUnsigned i < m.capacity then
    if i < intMax then (skipEmpty m memory (i + 1)).after i else ⟨none, [i]⟩
  else ⟨some i, [i]⟩
termination_by (intMax - i).toNat

/-- What a call of `wrenGetMapNext` does: its result, the slots and the iterator after it, and the entries it reads. There
is no result where an assertion fails or an `int` overflows. -/
structure Called where
  result : Option (Bool × VM × WrenIterator)
  touched : List ℤ

/-- The part of `wrenGetMapNext` behind the loop. -/
def takeEntry (memory : ℤ → MapEntry) (vm : VM) (map : ObjMap) (keySlot valueSlot : ℕ) (scan : Scan) : Called :=
  match scan.stop with
  | none => ⟨none, scan.touched⟩
  | some i =>
    if toUnsigned i = map.capacity then ⟨some (false, vm, ⟨toUnsigned i⟩), scan.touched⟩
    else
      let entry := map.entryAt memory i
      let value := if entry.value = .undefined then .null else entry.value
      let vm := (vm.setSlot valueSlot value).setSlot keySlot entry.key
      ⟨if i < intMax then some (true, vm, ⟨toUnsigned (i + 1)⟩) else none, scan.touched ++ [i]⟩

/-- `wrenGetMapNext` -/
def wrenGetMapNext (memory : ℤ → MapEntry) (vm : VM) (mapSlot : ℕ) (iter : WrenIterator) (keySlot valueSlot : ℕ) :
    Called :=
  if vm.apiStack.length ≤ keySlot ∨ vm.apiStack.length ≤ valueSlot then ⟨none, []⟩
  else
    match vm.mapIn mapSlot with
    | none => ⟨none, []⟩
    | some map =>
      let i := toInt iter.index
      if map.capacity ≤ toUnsigned i then ⟨some (false, vm, iter), []⟩
      else takeEntry memory vm map keySlot valueSlot (skipEmpty map memory i)

/-- A call and what it delivers: the key and the value in their slots, if it returns true. -/
def deliver (memory : ℤ → MapEntry) (mapSlot keySlot valueSlot : ℕ) (s : VM × WrenIterator) :
    Option (Option (Value × Value) × (VM × WrenIterator)) :=
  match (wrenGetMapNext memory s.1 mapSlot s.2 keySlot valueSlot).result with
  | none => none
  | some (false, s) => some (none, s)
  | some (true, vm, iter) =>
    match vm.apiStack[keySlot]?, vm.apiStack[valueSlot]? with
    | some k, some v => some (some (k, v), (vm, iter))
    | _, _ => none

/-- **Agreement**: the iteration of the language visits each live pair once, and the calls on a fresh iterator deliver the
same pairs in the same order, and then nothing at any later call. -/
def Agrees (m : ObjMap) (memory : ℤ → MapEntry) (vm : VM) (mapSlot keySlot valueSlot : ℕ) : Prop :=
  ∃ pairs, (∃ n, forEach m n .null = some pairs) ∧ pairs = m.live ∧
    ∀ n, Iterator.calls (deliver memory mapSlot keySlot valueSlot) n (vm, wrenNewIterator) =
      some ((pairs.map some ++ List.replicate n none).take n)

/-! ### Indices -/

section Words

variable {n : ℕ} {u : UInt32}

lemma toUnsigned_natCast (h : n < 2 ^ 32) : (toUnsigned n).toNat = n := by
  unfold toUnsigned
  rw [UInt32.toNat_ofNat', Int.emod_eq_of_lt (by omega) (by omega), Int.toNat_natCast]
  exact Nat.mod_eq_of_lt h

lemma toUnsigned_toInt (u : UInt32) : toUnsigned (toInt u) = u := by
  have hu := u.toNat_lt
  have hmod : toInt u % 2 ^ 32 = u.toNat := by
    unfold toInt
    have h := Int.bmod_emod (x := (u.toNat : ℤ)) (m := 2 ^ 32)
    rw [Nat.cast_pow, Nat.cast_ofNat] at h
    rw [h]
    exact Int.emod_eq_of_lt (by omega) (by omega)
  rw [toUnsigned, hmod, Int.toNat_natCast, UInt32.ofNat_toNat]

lemma toInt_of_lt (h : u.toNat < 2 ^ 31) : toInt u = u.toNat := by
  unfold toInt
  rw [Int.bmod_eq_of_le] <;> omega

lemma natCast_le_intMax : (n : ℤ) ≤ intMax ↔ n < 2 ^ 31 := by
  unfold intMax
  omega

lemma natCast_lt_intMax : (n : ℤ) < intMax ↔ n + 1 < 2 ^ 31 := by
  unfold intMax
  omega

end Words

/-! ### Maps whose capacity is an `int` -/

section Small

open Iterator

variable {m : ObjMap} {memory : ℤ → MapEntry} {i j : ℕ} {p : Value × Value} {e : MapEntry}

lemma entryAt_natCast (he : m.entries[i]? = some e) : m.entryAt memory i = e := by
  unfold ObjMap.entryAt
  rw [if_pos (by omega), Int.toNat_natCast, he]
  rfl

lemma skipEmpty_succ (hc : m.capacity.toNat < 2 ^ 31) (k : ℕ) (h : m.slots[k]? = some none) :
    (skipEmpty m memory k).stop = (skipEmpty m memory (k + 1 : ℕ)).stop := by
  obtain ⟨e, he, hu⟩ := slots_none h
  have hk := (List.getElem?_eq_some_iff.1 h).1
  rw [length_slots] at hk
  have hlt : toUnsigned k < m.capacity := by
    rw [UInt32.lt_iff_toNat_lt, toUnsigned_natCast (by omega)]
    exact hk
  have hmax : (k : ℤ) < intMax := natCast_lt_intMax.2 (by omega)
  rw [skipEmpty, if_pos ⟨by rw [entryAt_natCast he, hu], hlt⟩, if_pos hmax, Scan.stop_after,
    Nat.cast_succ]

/-- The loop stops at the next entry in use. -/
lemma skipEmpty_next (hc : m.capacity.toNat < 2 ^ 31) (h : NextUsed m.slots i j p) :
    (skipEmpty m memory i).stop = some (j : ℤ) := by
  obtain ⟨e, he, hu, -, -⟩ := slots_some h.2.1
  rw [h.eq (f := fun k : ℕ => (skipEmpty m memory k).stop) (skipEmpty_succ hc), skipEmpty, if_neg]
  rw [entryAt_natCast he, hu]
  simp

/-- Without one it stops behind the array, whatever is there. -/
lemma skipEmpty_none (hc : m.capacity.toNat < 2 ^ 31) (h : NoneUsed m.slots i) (hi : i ≤ m.capacity.toNat) :
    (skipEmpty m memory i).stop = some (m.capacity.toNat : ℤ) := by
  rw [h.eq (f := fun k : ℕ => (skipEmpty m memory k).stop) (by rwa [length_slots]) (skipEmpty_succ hc), length_slots,
    skipEmpty, if_neg]
  rintro ⟨-, hlt⟩
  rw [UInt32.lt_iff_toNat_lt, toUnsigned_natCast (by omega)] at hlt
  exact lt_irrefl _ hlt

/-- The state stands at the position `i` of the map. -/
structure At (m : ObjMap) (mapSlot : ℕ) (size : ℕ) (i : ℕ) (s : VM × WrenIterator) : Prop where
  map : s.1.mapIn mapSlot = some m
  stack : s.1.apiStack.length = size
  index : s.2.index.toNat = i
  le : i ≤ m.capacity.toNat

variable {mapSlot keySlot valueSlot size : ℕ} {s : VM × WrenIterator}

lemma mapIn_setSlot {vm : VM} {slot : ℕ} {v : Value} (h : slot ≠ mapSlot) :
    (vm.setSlot slot v).mapIn mapSlot = vm.mapIn mapSlot := by
  unfold VM.mapIn VM.setSlot
  dsimp only
  rw [List.getElem?_set_ne h]

/-- The call, where the index is below the capacity. -/
lemma wrenGetMapNext_eq {vm : VM} {iter : WrenIterator} (hs : At m mapSlot size i (vm, iter)) (hk : keySlot < size)
    (hv : valueSlot < size) (hi : i < m.capacity.toNat) (h31 : i < 2 ^ 31) :
    wrenGetMapNext memory vm mapSlot iter keySlot valueSlot =
      takeEntry memory vm m keySlot valueSlot (skipEmpty m memory i) := by
  obtain ⟨hmap, hstack, hindex, -⟩ := hs
  dsimp only at hmap hstack hindex
  have hint : toInt iter.index = i := by rw [toInt_of_lt (by omega), hindex]
  have hlt : ¬ m.capacity ≤ toUnsigned i := by
    rw [UInt32.le_iff_toNat_le, toUnsigned_natCast (by omega)]
    omega
  unfold wrenGetMapNext
  rw [if_neg (by omega), hmap]
  dsimp only
  rw [hint, if_neg hlt]

/-- The call, where the index is behind the array. -/
lemma wrenGetMapNext_end {vm : VM} {iter : WrenIterator} (hmap : vm.mapIn mapSlot = some m)
    (hk : keySlot < vm.apiStack.length) (hv : valueSlot < vm.apiStack.length) (hi : m.capacity ≤ iter.index) :
    wrenGetMapNext memory vm mapSlot iter keySlot valueSlot = ⟨some (false, vm, iter), []⟩ := by
  unfold wrenGetMapNext
  rw [if_neg (by omega), hmap]
  dsimp only
  rw [toUnsigned_toInt, if_pos hi]

/-- The part behind the loop, at an entry in use. -/
lemma takeEntry_used {vm : VM} {scan : Scan} (hstop : scan.stop = some (j : ℤ)) (he : m.entries[j]? = some e)
    (hu : e.used = true) (h31 : (j : ℤ) < intMax) :
    (takeEntry memory vm m keySlot valueSlot scan).result =
      some (true, (vm.setSlot valueSlot e.value).setSlot keySlot e.key, ⟨toUnsigned (j + 1 : ℕ)⟩) := by
  have hj := (List.getElem?_eq_some_iff.1 he).1
  rw [m.length_eq] at hj
  have hne : ¬ toUnsigned j = m.capacity := by
    intro heq
    have hto := congrArg UInt32.toNat heq
    have hcap := m.capacity.toNat_lt
    rw [toUnsigned_natCast (by omega)] at hto
    omega
  have hreal : e.value ≠ .undefined := m.real e (List.mem_of_getElem? he) hu
  unfold takeEntry
  rw [hstop]
  dsimp only
  rw [if_neg hne, entryAt_natCast he, if_neg hreal, if_pos h31, Nat.cast_succ]

/-- A call that finds an entry delivers its pair and goes behind it. -/
lemma deliver_next (hc : m.capacity.toNat < 2 ^ 31) (hk : keySlot < size) (hv : valueSlot < size)
    (hmk : mapSlot ≠ keySlot) (hmv : mapSlot ≠ valueSlot) (hkv : keySlot ≠ valueSlot) (hs : At m mapSlot size i s)
    (h : NextUsed m.slots i j p) :
    ∃ s', deliver memory mapSlot keySlot valueSlot s = some (some p, s') ∧ At m mapSlot size (j + 1) s' := by
  obtain ⟨e, he, hu, hkey, hvalue⟩ := slots_some h.2.1
  obtain ⟨vm, iter⟩ := s
  have hj := NextUsed.lt_capacity h
  have hij := h.1
  have hmax : (j : ℤ) < intMax := natCast_lt_intMax.2 (by omega)
  have hcall : (takeEntry memory vm m keySlot valueSlot (skipEmpty m memory i)).result =
      some (true, (vm.setSlot valueSlot e.value).setSlot keySlot e.key, ⟨toUnsigned (j + 1 : ℕ)⟩) :=
    takeEntry_used (skipEmpty_next hc h) he hu hmax
  rw [← wrenGetMapNext_eq hs hk hv (by omega) (by omega)] at hcall
  obtain ⟨hmap, hstack, -, -⟩ := hs
  dsimp only at hmap hstack
  refine ⟨((vm.setSlot valueSlot e.value).setSlot keySlot e.key, ⟨toUnsigned (j + 1 : ℕ)⟩), ?_, ⟨?_, ?_, ?_, by omega⟩⟩
  · unfold deliver
    rw [hcall]
    simp [VM.setSlot, hstack, hk, hv, hkv, hkey, hvalue]
  · rw [mapIn_setSlot hmk.symm, mapIn_setSlot hmv.symm, hmap]
  · simp [VM.setSlot, hstack]
  · exact toUnsigned_natCast (by omega)

/-- A call that finds none returns false, and so do the calls after it. -/
lemma deliver_end (hc : m.capacity.toNat < 2 ^ 31) (hk : keySlot < size) (hv : valueSlot < size)
    (hs : At m mapSlot size i s) (h : NoneUsed m.slots i) :
    ∃ s', deliver memory mapSlot keySlot valueSlot s = some (none, s') ∧ At m mapSlot size m.capacity.toNat s' := by
  obtain ⟨vm, iter⟩ := s
  have hle := hs.le
  rcases Nat.eq_or_lt_of_le hle with rfl | hlt
  · refine ⟨(vm, iter), ?_, hs⟩
    obtain ⟨hmap, hstack, hindex, -⟩ := hs
    dsimp only at hmap hstack hindex
    have hend : m.capacity ≤ iter.index := by
      rw [UInt32.le_iff_toNat_le, hindex]
    unfold deliver
    rw [wrenGetMapNext_end hmap (by omega) (by omega) hend]
  · have hcap : toUnsigned m.capacity.toNat = m.capacity := UInt32.toNat.inj (toUnsigned_natCast (by omega))
    have hcall : (takeEntry memory vm m keySlot valueSlot (skipEmpty m memory i)).result =
        some (false, vm, ⟨m.capacity⟩) := by
      unfold takeEntry
      rw [skipEmpty_none hc h hle]
      dsimp only
      rw [hcap, if_pos rfl]
    rw [← wrenGetMapNext_eq hs hk hv hlt (by omega)] at hcall
    refine ⟨(vm, ⟨m.capacity⟩), ?_, ⟨hs.map, hs.stack, rfl, le_rfl⟩⟩
    unfold deliver
    rw [hcall]

/-- **Where the capacity is an `int`** the calls deliver the live pairs. -/
lemma agrees_of_lt {vm : VM} (hc : m.capacity.toNat < 2 ^ 31) (hmap : vm.mapIn mapSlot = some m)
    (hk : keySlot < vm.apiStack.length) (hv : valueSlot < vm.apiStack.length) (hmk : mapSlot ≠ keySlot)
    (hmv : mapSlot ≠ valueSlot) (hkv : keySlot ≠ valueSlot) : Agrees m memory vm mapSlot keySlot valueSlot := by
  refine ⟨m.live, ⟨m.capacity.toNat + 1, forEach_live m (Nat.lt_succ_self _)⟩, rfl, fun n => ?_⟩
  have hstart : At m mapSlot vm.apiStack.length 0 (vm, wrenNewIterator) := ⟨hmap, rfl, rfl, Nat.zero_le _⟩
  refine calls_eq (P := At m mapSlot vm.apiStack.length) (deliver_next hc hk hv hmk hmv hkv) ?_ n hstart
  intro i s hs h
  rw [length_slots]
  exact deliver_end hc hk hv hs h

end Small

/-! ### Larger maps -/

section Large

variable {m : ObjMap} {memory : ℤ → MapEntry} {mapSlot keySlot valueSlot : ℕ}

/-- The loop never stops past `INT_MAX`. -/
lemma skipEmpty_le {i j : ℤ} (hi : i ≤ intMax) (h : (skipEmpty m memory i).stop = some j) : i ≤ j ∧ j ≤ intMax := by
  rw [skipEmpty] at h
  split_ifs at h with hskip hlt
  · rw [Scan.stop_after] at h
    have := skipEmpty_le (Int.add_one_le_of_lt hlt) h
    omega
  · cases h
    exact ⟨le_rfl, hi⟩
termination_by (intMax - i).toNat

/-- The map is in its slot, and the index is an `int`. -/
def Going (m : ObjMap) (mapSlot : ℕ) (s : VM × WrenIterator) : Prop :=
  s.1.mapIn mapSlot = some m ∧ s.2.index.toNat < 2 ^ 31

/-- What the part behind the loop can return: false behind the array, and else true, with the next index. -/
lemma takeEntry_cases {vm vm' : VM} {iter' : WrenIterator} {i : ℕ} {r : Bool} (hi : (i : ℤ) ≤ intMax)
    (h : (takeEntry memory vm m keySlot valueSlot (skipEmpty m memory i)).result = some (r, vm', iter')) :
    ∃ n : ℕ, i ≤ n ∧ (n : ℤ) ≤ intMax ∧ (skipEmpty m memory i).stop = some (n : ℤ) ∧
      ((n = m.capacity.toNat ∧ r = false ∧ vm' = vm ∧ iter' = ⟨toUnsigned n⟩) ∨
        (n ≠ m.capacity.toNat ∧ (n : ℤ) < intMax ∧ r = true ∧
          (∃ k v, vm' = (vm.setSlot valueSlot v).setSlot keySlot k) ∧ iter' = ⟨toUnsigned (n + 1 : ℕ)⟩)) := by
  unfold takeEntry at h
  cases hstop : (skipEmpty m memory i).stop with
  | none =>
    rw [hstop] at h
    cases h
  | some j =>
    rw [hstop] at h
    obtain ⟨hle, hmax⟩ := skipEmpty_le hi hstop
    obtain ⟨n, rfl⟩ := Int.eq_ofNat_of_zero_le (show 0 ≤ j by omega)
    have hword : toUnsigned n = m.capacity ↔ n = m.capacity.toNat := by
      have hn := natCast_le_intMax.1 hmax
      rw [← UInt32.toNat_inj, toUnsigned_natCast (by omega)]
    refine ⟨n, by omega, hmax, rfl, ?_⟩
    dsimp only at h
    by_cases hend : toUnsigned n = m.capacity
    · rw [if_pos hend] at h
      cases h
      exact Or.inl ⟨hword.1 hend, rfl, rfl, rfl⟩
    · rw [if_neg hend] at h
      dsimp only at h
      split_ifs at h with hlt
      all_goals
        cases h
        exact Or.inr ⟨fun e => hend (hword.2 e), hlt, rfl, ⟨_, _, rfl⟩, by rw [Nat.cast_succ]⟩

/-- What a call can return. -/
lemma wrenGetMapNext_cases {vm vm' : VM} {iter iter' : WrenIterator} {r : Bool} (hi : iter.index.toNat < 2 ^ 31)
    (h : (wrenGetMapNext memory vm mapSlot iter keySlot valueSlot).result = some (r, vm', iter')) :
    ∃ m, vm.mapIn mapSlot = some m ∧ ((m.capacity ≤ iter.index ∧ r = false ∧ vm' = vm ∧ iter' = iter) ∨
      (iter.index < m.capacity ∧
        (takeEntry memory vm m keySlot valueSlot (skipEmpty m memory iter.index.toNat)).result = some (r, vm', iter'))) := by
  unfold wrenGetMapNext at h
  split at h
  · cases h
  cases hmap : vm.mapIn mapSlot with
  | none =>
    rw [hmap] at h
    cases h
  | some m =>
    rw [hmap] at h
    dsimp only at h
    rw [toUnsigned_toInt, toInt_of_lt hi] at h
    refine ⟨m, rfl, ?_⟩
    split at h
    · rename_i hend
      cases h
      exact Or.inl ⟨hend, rfl, rfl, rfl⟩
    · rename_i hend
      exact Or.inr ⟨UInt32.not_le.1 hend, h⟩

lemma takeEntry_going {vm vm' : VM} {iter' : WrenIterator} {i : ℕ} {r : Bool} (hc : 2 ^ 31 ≤ m.capacity.toNat)
    (hmk : mapSlot ≠ keySlot) (hmv : mapSlot ≠ valueSlot) (hmap : vm.mapIn mapSlot = some m) (hi : (i : ℤ) ≤ intMax)
    (h : (takeEntry memory vm m keySlot valueSlot (skipEmpty m memory i)).result = some (r, vm', iter')) :
    r = true ∧ Going m mapSlot (vm', iter') := by
  obtain ⟨n, -, hmax, -, hcases⟩ := takeEntry_cases hi h
  rw [natCast_le_intMax] at hmax
  rcases hcases with ⟨rfl, -⟩ | ⟨-, hlt, rfl, ⟨k, v, rfl⟩, rfl⟩
  · omega
  · rw [natCast_lt_intMax] at hlt
    refine ⟨rfl, ?_, ?_⟩
    · rw [mapIn_setSlot hmk.symm, mapIn_setSlot hmv.symm, hmap]
    · dsimp only
      rw [toUnsigned_natCast (by omega)]
      omega

/-- On a larger map no call returns false. -/
lemma deliver_going (hc : 2 ^ 31 ≤ m.capacity.toNat) (hmk : mapSlot ≠ keySlot) (hmv : mapSlot ≠ valueSlot)
    {s s' : VM × WrenIterator} {x : Option (Value × Value)} (hs : Going m mapSlot s)
    (h : deliver memory mapSlot keySlot valueSlot s = some (x, s')) : x ≠ none ∧ Going m mapSlot s' := by
  obtain ⟨vm, iter⟩ := s
  obtain ⟨hmap, hindex⟩ := hs
  dsimp only at hmap hindex
  have hgoing : ∀ {r vm' iter'}, (wrenGetMapNext memory vm mapSlot iter keySlot valueSlot).result =
      some (r, vm', iter') → r = true ∧ Going m mapSlot (vm', iter') := by
    intro r vm' iter' h
    obtain ⟨m', hmap', hcases⟩ := wrenGetMapNext_cases hindex h
    obtain rfl := Option.some.inj (hmap.symm.trans hmap')
    rcases hcases with ⟨hle, -⟩ | ⟨-, htake⟩
    · rw [UInt32.le_iff_toNat_le] at hle
      omega
    · exact takeEntry_going hc hmk hmv hmap (natCast_le_intMax.2 hindex) htake
  unfold deliver at h
  dsimp only at h
  split at h
  · cases h
  · rename_i hcall
    exact absurd (hgoing hcall).1 (by decide)
  · rename_i hcall
    split at h
    · cases h
      exact ⟨by simp, (hgoing hcall).2⟩
    · cases h

/-- So the calls do not come to an end. -/
lemma calls_going (hc : 2 ^ 31 ≤ m.capacity.toNat) (hmk : mapSlot ≠ keySlot) (hmv : mapSlot ≠ valueSlot) (n : ℕ)
    {s : VM × WrenIterator} {rs : List (Option (Value × Value))} (hs : Going m mapSlot s)
    (h : Iterator.calls (deliver memory mapSlot keySlot valueSlot) n s = some rs) : none ∉ rs := by
  induction n generalizing s rs with
  | zero =>
    cases h
    exact List.not_mem_nil
  | succ n ih =>
    simp only [Iterator.calls, Option.bind_eq_some_iff, Option.map_eq_some_iff] at h
    obtain ⟨⟨x, s'⟩, h1, rs, h2, rfl⟩ := h
    obtain ⟨hx, hs'⟩ := deliver_going hc hmk hmv hs h1
    rw [List.mem_cons, not_or]
    exact ⟨hx.symm, ih hs' h2⟩

lemma not_agrees_of_le {vm : VM} (hc : 2 ^ 31 ≤ m.capacity.toNat) (hmk : mapSlot ≠ keySlot) (hmv : mapSlot ≠ valueSlot)
    (hmap : vm.mapIn mapSlot = some m) : ¬ Agrees m memory vm mapSlot keySlot valueSlot := by
  rintro ⟨pairs, -, -, hcalls⟩
  have hstart : Going m mapSlot (vm, wrenNewIterator) := ⟨hmap, Nat.two_pow_pos 31⟩
  refine calls_going hc hmk hmv _ hstart (hcalls (pairs.length + 1)) ?_
  rw [List.take_append, List.mem_append]
  right
  simp

end Large

/-- **Exactly when the two iterations agree**: the capacity is an `int`. What is in memory behind the array does not
matter. -/
theorem agrees_iff (m : ObjMap) (memory : ℤ → MapEntry) (vm : VM) (mapSlot keySlot valueSlot : ℕ)
    (hmap : vm.mapIn mapSlot = some m) (hk : keySlot < vm.apiStack.length) (hv : valueSlot < vm.apiStack.length)
    (hmk : mapSlot ≠ keySlot) (hmv : mapSlot ≠ valueSlot) (hkv : keySlot ≠ valueSlot) :
    Agrees m memory vm mapSlot keySlot valueSlot ↔ m.capacity.toNat < 2 ^ 31 := by
  constructor
  · intro h
    by_contra hc
    exact not_agrees_of_le (not_lt.1 hc) hmk hmv hmap h
  · intro hc
    exact agrees_of_lt hc hmap hk hv hmk hmv hkv

/-- A map with a tombstone between two entries, and an empty slot at its end. -/
def smallMap : ObjMap where
  capacity := 4
  count := 2
  entries := [⟨.num 7, .num 8⟩, ⟨.undefined, .bool true⟩, ⟨.bool true, .null⟩, ⟨.undefined, .bool false⟩]
  length_eq := by decide
  count_eq := by decide
  real := by
    intro e he hu
    fin_cases he <;> simp_all [MapEntry.used]

/-- A machine with the map in the first of three slots. -/
def machineWith (m : ObjMap) : VM := ⟨[.obj 0, .null, .null], fun _ => some m⟩

theorem agrees_smallMap : Agrees smallMap (fun _ => ⟨.num 5, .num 5⟩) (machineWith smallMap) 0 1 2 :=
  (agrees_iff smallMap _ (machineWith smallMap) 0 1 2 rfl (by decide) (by decide) (by decide) (by decide)
    (by decide)).2 (by decide)

/-- A map of `n` slots, with the numbers below `used` as its keys. -/
def numbersMap (used n : ℕ) (h : used ≤ n) (hn : n < 2 ^ 32) : ObjMap where
  capacity := .ofNat n
  count := .ofNat used
  entries := (List.range used).map (fun k => ⟨.num k, .null⟩) ++ List.replicate (n - used) ⟨.undefined, .bool false⟩
  length_eq := by
    rw [UInt32.toNat_ofNat', Nat.mod_eq_of_lt hn]
    simp only [List.length_append, List.length_map, List.length_range, List.length_replicate]
    omega
  count_eq := by
    rw [UInt32.toNat_ofNat', Nat.mod_eq_of_lt (by omega), List.countP_append, List.countP_map, List.countP_replicate]
    simp [MapEntry.used, Function.comp_def]
  real := by
    intro e he hu
    rw [List.mem_append, List.mem_map] at he
    rcases he with ⟨k, -, rfl⟩ | he
    · simp
    · rw [List.eq_of_mem_replicate he] at hu
      simp [MapEntry.used] at hu

lemma not_agrees_numbersMap {used n : ℕ} (h : used ≤ n) (hn : n < 2 ^ 32) (h31 : 2 ^ 31 ≤ n) (memory : ℤ → MapEntry) :
    ¬ Agrees (numbersMap used n h hn) memory (machineWith (numbersMap used n h hn)) 0 1 2 := by
  have hc : (numbersMap used n h hn).capacity.toNat = n := by
    change (UInt32.ofNat n).toNat = n
    rw [UInt32.toNat_ofNat', Nat.mod_eq_of_lt hn]
  exact not_agrees_of_le (by rwa [hc]) (by decide) (by decide) rfl

lemma grown_fits : 32212255 ≤ 2 ^ 31 ∧ 2 ^ 31 < 2 ^ 32 := by norm_num

/-- A map that has grown to `2 ^ 31` slots. -/
def grownMap : ObjMap := numbersMap 32212255 (2 ^ 31) grown_fits.1 grown_fits.2

/-- The calls never say that they are at the end. -/
theorem not_agrees_grown : ¬ Agrees grownMap (fun _ => ⟨.undefined, .bool false⟩) (machineWith grownMap) 0 1 2 :=
  not_agrees_numbersMap _ _ le_rfl _

end Wrensong.Wren
