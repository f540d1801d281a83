import Wrensong.Wren.Iterate

/-!
# The entries that the map iterator reads

The loop of `wrenGetMapNext` reads every entry from the index of the iterator to the one at which it stops
(`skipEmpty_touched`), and it reads an entry before it compares the index with the capacity. Where no entry from the index
on is in use, it stops behind the array, and so it has read the entry there (`behind_touched`). `staysInside_iff` says for
which maps this happens at no iterator that calls reach: the array is empty, or its last slot is in use.
-/

namespace Wrensong.Wren

open Wrensong.Lib

/-- The iterators that calls reach. The map of a call is any map, and between the calls the host may change it. -/
inductive Reachable : WrenIterator → Prop
  | new : Reachable wrenNewIterator
  | reset {iter : WrenIterator} (h : Reachable iter) : Reachable (wrenResetIterator iter)
  | next {memory : ℤ → MapEntry} {vm vm' : VM} {mapSlot keySlot valueSlot : ℕ} {iter iter' : WrenIterator} {r : Bool}
      (h : Reachable iter)
      (hcall : (wrenGetMapNext memory vm mapSlot iter keySlot valueSlot).result = some (r, vm', iter')) : Reachable iter'

/-- The call reads entries of the array only. Where an `int` overflows there is no result, and C does not say what is
read. -/
structure Called.Inside (c : Called) (m : ObjMap) : Prop where
  defined : c.result ≠ none
  touched : ∀ i ∈ c.touched, 0 ≤ i ∧ i < m.capacity.toNat

/-- **Safety**: whatever iterator calls have reached, a call on the map reads entries of its array only. -/
def ObjMap.StaysInside (m : ObjMap) : Prop :=
  ∀ (memory : ℤ → MapEntry) (vm : VM) (mapSlot keySlot valueSlot : ℕ) (iter : WrenIterator), vm.mapIn mapSlot = some m →
    keySlot < vm.apiStack.length → valueSlot < vm.apiStack.length → Reachable iter →
      (wrenGetMapNext memory vm mapSlot iter keySlot valueSlot).Inside m

/-- The last slot is in use, if there is one. -/
def ObjMap.EndsUsed (m : ObjMap) : Prop := ∀ e ∈ m.entries.getLast?, e.used = true

/-! ### What one call reads -/

section Call

variable {m : ObjMap} {memory : ℤ → MapEntry}

/-- The loop reads the entries from where it starts to where it stops. -/
lemma skipEmpty_touched {i j x : ℤ} (h : (skipEmpty m memory i).stop = some j) :
    x ∈ (skipEmpty m memory i).touched ↔ i ≤ x ∧ x ≤ j := by
  rw [skipEmpty] at h ⊢
  split_ifs at h ⊢ with hskip hlt
  · rw [Scan.stop_after] at h
    have hle := (skipEmpty_le (Int.add_one_le_of_lt hlt) h).1
    rw [Scan.after, List.mem_cons, skipEmpty_touched h]
    omega
  · cases h
    rw [List.mem_singleton]
    omega
termination_by (intMax - i).toNat

/-- It stops at an entry in use, or behind the array. -/
lemma skipEmpty_stop {i j : ℤ} (h : (skipEmpty m memory i).stop = some j) :
    ¬ ((m.entryAt memory j).used = false ∧ toUnsigned j < m.capacity) := by
  rw [skipEmpty] at h
  split_ifs at h with hskip hlt
  · exact skipEmpty_stop h
  · cases h
    exact hskip
termination_by (intMax - i).toNat

variable {vm : VM} {mapSlot keySlot valueSlot : ℕ} {iter : WrenIterator}

/-- The part behind the loop reads the entry at which the loop stopped. -/
lemma takeEntry_touched {i j x : ℤ} (hi : i ≤ intMax) (h : (skipEmpty m memory i).stop = some j) :
    x ∈ (takeEntry memory vm m keySlot valueSlot (skipEmpty m memory i)).touched ↔ i ≤ x ∧ x ≤ j := by
  have hle := (skipEmpty_le hi h).1
  unfold takeEntry
  rw [h]
  dsimp only
  by_cases hend : toUnsigned j = m.capacity
  · rw [if_pos hend]
    exact skipEmpty_touched h
  · rw [if_neg hend, List.mem_append, skipEmpty_touched h, List.mem_singleton]
    omega

/-- The next index is an `int` again. -/
lemma index_lt {vm' : VM} {iter' : WrenIterator} {r : Bool} (hi : iter.index.toNat < 2 ^ 31)
    (h : (wrenGetMapNext memory vm mapSlot iter keySlot valueSlot).result = some (r, vm', iter')) :
    iter'.index.toNat < 2 ^ 31 := by
  obtain ⟨m, -, ⟨-, -, -, rfl⟩ | ⟨-, htake⟩⟩ := wrenGetMapNext_cases hi h
  · exact hi
  obtain ⟨n, -, hmax, -, ⟨-, -, -, rfl⟩ | ⟨-, hlt, -, -, rfl⟩⟩ := takeEntry_cases (natCast_le_intMax.2 hi) htake
  · rw [natCast_le_intMax] at hmax
    dsimp only
    rwa [toUnsigned_natCast (by omega)]
  · rw [natCast_lt_intMax] at hlt
    dsimp only
    rwa [toUnsigned_natCast (by omega)]

end Call

lemma Reachable.lt {iter : WrenIterator} (h : Reachable iter) : iter.index.toNat < 2 ^ 31 := by
  induction h with
  | new => exact Nat.two_pow_pos 31
  | reset h ih => exact Nat.two_pow_pos 31
  | next h hcall ih => exact index_lt ih hcall

/-! ### The maps whose array is not left -/

section Map

open Iterator

variable {m : ObjMap} {memory : ℤ → MapEntry} {vm : VM} {mapSlot keySlot valueSlot j : ℕ} {iter : WrenIterator}
  {p : Value × Value} (hmap : vm.mapIn mapSlot = some m) (hk : keySlot < vm.apiStack.length)
  (hv : valueSlot < vm.apiStack.length)

include hmap hk hv

/-- The call, where the index is in the array. -/
lemma wrenGetMapNext_inner (hi : iter.index.toNat < m.capacity.toNat) (h31 : iter.index.toNat < 2 ^ 31) :
    wrenGetMapNext memory vm mapSlot iter keySlot valueSlot =
      takeEntry memory vm m keySlot valueSlot (skipEmpty m memory iter.index.toNat) :=
  wrenGetMapNext_eq ⟨hmap, rfl, rfl, hi.le⟩ hk hv hi h31

/-- A call that finds an entry reads up to this entry. -/
lemma call_next (memory : ℤ → MapEntry) (hc : m.capacity.toNat < 2 ^ 31) (h : NextUsed m.slots iter.index.toNat j p) :
    (∃ vm', (wrenGetMapNext memory vm mapSlot iter keySlot valueSlot).result =
      some (true, vm', ⟨toUnsigned (j + 1 : ℕ)⟩)) ∧
      ∀ x ∈ (wrenGetMapNext memory vm mapSlot iter keySlot valueSlot).touched, iter.index.toNat ≤ x ∧ x ≤ j := by
  have hj := NextUsed.lt_capacity h
  have hij := h.1
  have hmax : (j : ℤ) < intMax := natCast_lt_intMax.2 (by omega)
  obtain ⟨e, he, hu, -, -⟩ := slots_some h.2.1
  rw [wrenGetMapNext_inner hmap hk hv (by omega) (by omega)]
  refine ⟨⟨_, takeEntry_used (skipEmpty_next hc h) he hu hmax⟩, fun x hx => ?_⟩
  exact (takeEntry_touched (by omega) (skipEmpty_next hc h)).1 hx

/-- **A call that finds none** reads the entry behind the array. -/
lemma behind_touched (hc : m.capacity.toNat < 2 ^ 31) (h : NoneUsed m.slots iter.index.toNat)
    (hi : iter.index.toNat < m.capacity.toNat) :
    (m.capacity.toNat : ℤ) ∈ (wrenGetMapNext memory vm mapSlot iter keySlot valueSlot).touched := by
  have hmax : (iter.index.toNat : ℤ) ≤ intMax := natCast_le_intMax.2 (by omega)
  rw [wrenGetMapNext_inner hmap hk hv hi (by omega), takeEntry_touched hmax (skipEmpty_none hc h hi.le)]
  omega

/-- A call that stays inside goes on to the next index, behind an entry in use. -/
lemma next_of_inside (hin : (wrenGetMapNext memory vm mapSlot iter keySlot valueSlot).Inside m)
    (hi : iter.index.toNat < m.capacity.toNat) (h31 : iter.index.toNat < 2 ^ 31) :
    ∃ (n : ℕ) (e : MapEntry) (vm' : VM), iter.index.toNat ≤ n ∧ n + 1 < 2 ^ 31 ∧ m.entries[n]? = some e ∧
      e.used = true ∧ (wrenGetMapNext memory vm mapSlot iter keySlot valueSlot).result =
        some (true, vm', ⟨toUnsigned (n + 1 : ℕ)⟩) := by
  have hmax : (iter.index.toNat : ℤ) ≤ intMax := natCast_le_intMax.2 h31
  obtain ⟨⟨r, vm', iter'⟩, hresult⟩ := Option.ne_none_iff_exists'.1 hin.defined
  have htake := hresult
  rw [wrenGetMapNext_inner hmap hk hv hi h31] at htake
  obtain ⟨n, hle, -, hstop, hcases⟩ := takeEntry_cases hmax htake
  have htouched : (n : ℤ) ∈ (wrenGetMapNext memory vm mapSlot iter keySlot valueSlot).touched := by
    rw [wrenGetMapNext_inner hmap hk hv hi h31, takeEntry_touched hmax hstop]
    omega
  have hn := (hin.touched _ htouched).2
  rcases hcases with ⟨rfl, -⟩ | ⟨-, hlt, rfl, -, rfl⟩
  · omega
  rw [natCast_lt_intMax] at hlt
  obtain ⟨e, he⟩ : ∃ e, m.entries[n]? = some e := ⟨_, List.getElem?_eq_getElem (by rw [m.length_eq]; omega)⟩
  refine ⟨n, e, vm', hle, hlt, he, ?_, hresult⟩
  by_contra hu
  refine skipEmpty_stop hstop ⟨?_, ?_⟩
  · rw [entryAt_natCast he]
    simpa using hu
  · rw [UInt32.lt_iff_toNat_lt, toUnsigned_natCast (by omega)]
    omega

lemma inside_of_endsUsed (hc : m.capacity.toNat < 2 ^ 31) (hm : m.EndsUsed) :
    (wrenGetMapNext memory vm mapSlot iter keySlot valueSlot).Inside m := by
  rcases le_or_gt m.capacity.toNat iter.index.toNat with hi | hi
  · rw [wrenGetMapNext_end hmap hk hv hi]
    exact ⟨by simp, by simp⟩
  rcases search_cases m.slots iter.index.toNat with h | ⟨j, p, h⟩
  · -- the last slot is in use
    obtain ⟨e, he, hu⟩ := slots_none (h (m.capacity.toNat - 1) (by omega) (by rw [length_slots]; omega))
    rw [← m.length_eq, ← List.getLast?_eq_getElem?] at he
    rw [hm e he] at hu
    cases hu
  · obtain ⟨⟨vm', hresult⟩, htouched⟩ := call_next hmap hk hv memory hc h
    have hj := NextUsed.lt_capacity h
    refine ⟨by simp [hresult], fun x hx => ?_⟩
    have := htouched x hx
    omega

end Map

/-- Where the array is not left, a reached index in the array leads to the one behind an entry in use. -/
lemma ObjMap.StaysInside.next {m : ObjMap} (h : m.StaysInside) {iter : WrenIterator} (hr : Reachable iter)
    (hi : iter.index.toNat < m.capacity.toNat) :
    ∃ (n : ℕ) (e : MapEntry) (iter' : WrenIterator), iter.index.toNat ≤ n ∧ n + 1 < 2 ^ 31 ∧ m.entries[n]? = some e ∧
      e.used = true ∧ Reachable iter' ∧ iter'.index.toNat = n + 1 := by
  have hkey : 1 < (machineWith m).apiStack.length := show 1 < 3 by decide
  have hvalue : 2 < (machineWith m).apiStack.length := show 2 < 3 by decide
  have hin := h (fun _ => ⟨.undefined, .null⟩) (machineWith m) 0 1 2 iter rfl hkey hvalue hr
  obtain ⟨n, e, vm', hle, h31, he, hu, hresult⟩ := next_of_inside rfl hkey hvalue hin hi hr.lt
  exact ⟨n, e, _, hle, h31, he, hu, hr.next hresult, toUnsigned_natCast (by omega)⟩

/-- **For which maps the array is not left**: the capacity is an `int`, and the last slot is in use. -/
theorem staysInside_iff (m : ObjMap) : m.StaysInside ↔ m.capacity.toNat < 2 ^ 31 ∧ m.EndsUsed := by
  constructor
  · intro h
    by_contra hno
    have hpos : 0 < m.capacity.toNat := by
      by_contra hzero
      have hnil : m.entries = [] := List.length_eq_zero_iff.1 (by rw [m.length_eq]; omega)
      exact hno ⟨by omega, by simp [ObjMap.EndsUsed, hnil]⟩
    -- every call goes on, and so the indices come to the end of the array
    have hreach : ∀ n, ∃ iter, Reachable iter ∧ n ≤ iter.index.toNat ∧ iter.index.toNat < m.capacity.toNat := by
      intro n
      induction n with
      | zero => exact ⟨_, .new, Nat.zero_le _, hpos⟩
      | succ n ih =>
        obtain ⟨iter, hr, hn, hi⟩ := ih
        obtain ⟨k, e, iter', hle, h31, he, hu, hr', hindex⟩ := h.next hr hi
        have hk := (List.getElem?_eq_some_iff.1 he).1
        rw [m.length_eq] at hk
        refine ⟨iter', hr', by omega, ?_⟩
        by_contra hlast
        refine hno ⟨by omega, fun e' he' => ?_⟩
        rw [List.getLast?_eq_getElem?, m.length_eq, show m.capacity.toNat - 1 = k by omega, he] at he'
        cases he'
        exact hu
    obtain ⟨iter, -, h1, h2⟩ := hreach m.capacity.toNat
    omega
  · rintro ⟨hc, hm⟩ memory vm mapSlot keySlot valueSlot iter hmap hk hv -
    exact inside_of_endsUsed hmap hk hv hc hm

/-- The map of `{1: 2}`, as `wrenMapSet` makes it: the hash of the key is 5 modulo the capacity. -/
def oneEntry : ObjMap where
  capacity := 16
  count := 1
  entries := List.replicate 5 ⟨.undefined, .bool false⟩ ++ ⟨.num 1, .num 2⟩ :: List.replicate 10 ⟨.undefined, .bool false⟩
  length_eq := rfl
  count_eq := rfl
  real := by
    intro e he hu
    simp only [List.mem_append, List.mem_cons, List.mem_replicate] at he
    rcases he with ⟨-, rfl⟩ | rfl | ⟨-, rfl⟩
    · cases hu
    · simp
    · cases hu

/-- The second call on it reads `entries[16]`. -/
theorem not_inside : ¬ ∀ (m : ObjMap) (memory : ℤ → MapEntry) (vm : VM) (mapSlot keySlot valueSlot : ℕ)
    (iter : WrenIterator), vm.mapIn mapSlot = some m → keySlot < vm.apiStack.length → valueSlot < vm.apiStack.length →
      Reachable iter → ∀ i ∈ (wrenGetMapNext memory vm mapSlot iter keySlot valueSlot).touched,
        0 ≤ i ∧ i < m.capacity.toNat := by
  intro h
  let memory : ℤ → MapEntry := fun _ => ⟨.undefined, .null⟩
  have hfirst : Iterator.NextUsed oneEntry.slots wrenNewIterator.index.toNat 5 (.num 1, .num 2) := by
    refine ⟨by decide, rfl, fun k _ hk => ?_⟩
    interval_cases k <;> rfl
  have hrest : Iterator.NoneUsed oneEntry.slots (toUnsigned (5 + 1 : ℕ)).toNat := by
    intro k hk hlen
    rw [toUnsigned_natCast (by decide)] at hk
    rw [length_slots] at hlen
    change k < 16 at hlen
    interval_cases k <;> rfl
  obtain ⟨vm', hcall⟩ : ∃ vm', (wrenGetMapNext memory (machineWith oneEntry) 0 wrenNewIterator 1 2).result =
      some (true, vm', ⟨toUnsigned (5 + 1 : ℕ)⟩) := (call_next rfl (by decide) (by decide) memory (by decide) hfirst).1
  have hbehind : ((16 : ℕ) : ℤ) ∈
      (wrenGetMapNext memory (machineWith oneEntry) 0 ⟨toUnsigned (5 + 1 : ℕ)⟩ 1 2).touched :=
    behind_touched rfl (by decide) (by decide) (by decide) hrest (by decide)
  have hlt := (h oneEntry memory (machineWith oneEntry) 0 1 2 _ rfl (by decide) (by decide) (.next .new hcall) _ hbehind).2
  exact absurd hlt (by decide)

end Wrensong.Wren
