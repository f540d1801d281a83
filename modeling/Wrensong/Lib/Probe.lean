import Mathlib.Data.List.Pairwise
import Mathlib.Tactic

/-!
# Hash tables with open addressing

A table is a list of slots. A slot is empty, has a key with its value, or is a tombstone where a key was taken out. A search
tries the slots from the hash of the key on, as far as the first empty one, and a new key goes to the first slot on its way
that has none.

Keys are compared by an equivalence `eq`, and `K` is a set of keys on which equal keys have equal hashes (`Coherent`).
`Stores eq hash K t f` says that the table is well formed, has only such keys, and represents the partial function `f` on
`K`. `Stores.put` and `Stores.erase` are the rules for the operations, and `Stores.rehash` is the one for a copy to a table of
another size.
-/

namespace Wrensong.Lib.Probe

inductive Slot (κ ν : Type*)
  | empty
  | tombstone
  | full (k : κ) (v : ν)
  deriving DecidableEq, Repr

/-- Where a key is, or where it goes if it is new. -/
inductive Place
  | found (i : ℕ)
  | missing (i : Option ℕ)
  deriving DecidableEq, Repr

variable {κ ν : Type*}

def Slot.isFull : Slot κ ν → Bool
  | .full _ _ => true
  | _ => false

/-- The pair in a slot. -/
def Slot.pair : Slot κ ν → Option (κ × ν)
  | .full k v => some (k, v)
  | _ => none

/-- How many slots have a key. -/
def used (t : List (Slot κ ν)) : ℕ := t.countP Slot.isFull

/-- The pairs in the order of the slots. -/
def live (t : List (Slot κ ν)) : List (κ × ν) := t.filterMap Slot.pair

/-- The slots in the order in which they are tried. -/
def probes (n start : ℕ) : List ℕ := (List.range n).map fun j => (start + j) % n

section Operations

variable (eq : κ → κ → Bool) (hash : κ → ℕ)

/-- Tries the slots; `i` is the first tombstone so far. -/
def search (t : List (Slot κ ν)) (k : κ) : List ℕ → Option ℕ → Place
  | [], i => .missing i
  | j :: js, i =>
    match t[j]? with
    | some .empty => .missing (i.or (some j))
    | some .tombstone => search t k js (i.or (some j))
    | some (.full k' _) => if eq k' k then .found j else search t k js i
    | none => search t k js i

def find (t : List (Slot κ ν)) (k : κ) : Place := search eq t k (probes t.length (hash k)) none

/-- A key gets a value. A key that is there stays as it is written. -/
def put (t : List (Slot κ ν)) (k : κ) (v : ν) : Option (List (Slot κ ν)) :=
  match find eq hash t k with
  | .found i => (t[i]?.bind Slot.pair).map fun p => t.set i (.full p.1 v)
  | .missing i => i.map fun i => t.set i (.full k v)

/-- Many keys get values. -/
def putAll : List (Slot κ ν) → List (κ × ν) → Option (List (Slot κ ν))
  | t, [] => some t
  | t, p :: ps => (put eq hash t p.1 p.2).bind fun t => putAll t ps

/-- `f` with another value for a key. -/
def assign (f : κ → Option ν) (k : κ) (v : Option ν) : κ → Option ν := fun k' => if eq k k' then v else f k'

end Operations

/-- A search that tries the slots gets to `i`. -/
inductive Reaches (t : List (Slot κ ν)) : List ℕ → ℕ → Prop
  | here {i : ℕ} {is : List ℕ} : Reaches t (i :: is) i
  | there {i j : ℕ} {is : List ℕ} (hj : t[j]? ≠ some .empty) (h : Reaches t is i) : Reaches t (j :: is) i

/-- A key can go there. -/
def Free (t : List (Slot κ ν)) (i : ℕ) : Prop := t[i]? = some .empty ∨ t[i]? = some .tombstone

/-! ### The search -/

section Search

variable {eq : κ → κ → Bool} {hash : κ → ℕ} {t t' : List (Slot κ ν)} {k k' : κ} {v : ν} {is : List ℕ} {i j : ℕ}
  {place : Option ℕ}

/-- A slot that is found has the key. -/
lemma search_found (h : search eq t k is place = .found i) : ∃ k' v, t[i]? = some (.full k' v) ∧ eq k' k = true := by
  induction is generalizing place with
  | nil => cases h
  | cons j js ih =>
    unfold search at h
    split at h
    · cases h
    · exact ih h
    · rename_i k' v hj
      split_ifs at h with he
      · cases h
        exact ⟨k', v, hj, he⟩
      · exact ih h
    · exact ih h

/-- A search that finds nothing has met no slot with the key. -/
lemma search_missing {r : Option ℕ} (h : search eq t k is place = .missing r) (hr : Reaches t is i)
    (hi : t[i]? = some (.full k' v)) : eq k' k = false := by
  induction is generalizing place with
  | nil => cases hr
  | cons j js ih =>
    unfold search at h
    cases hr with
    | here =>
      rw [hi] at h
      simp only at h
      split_ifs at h with he
      simpa using he
    | there hj hr =>
      split at h
      · rename_i hempty
        exact absurd hempty hj
      · exact ih h hr
      · split_ifs at h
        exact ih h hr
      · exact ih h hr

/-- A new key goes to a free slot on its way, or to the tombstone that was met before. -/
lemma search_place (h : search eq t k is place = .missing (some i)) : place = some i ∨ (Reaches t is i ∧ Free t i) := by
  induction is generalizing place with
  | nil =>
    cases h
    exact Or.inl rfl
  | cons j js ih =>
    have hskip : t[j]? ≠ some .empty → search eq t k js place = .missing (some i) →
        place = some i ∨ (Reaches t (j :: js) i ∧ Free t i) := by
      intro hj h
      rcases ih h with h | ⟨hr, hf⟩
      · exact Or.inl h
      · exact Or.inr ⟨.there hj hr, hf⟩
    unfold search at h
    split at h
    · rename_i hj
      cases place with
      | some p =>
        cases h
        exact Or.inl rfl
      | none =>
        cases h
        exact Or.inr ⟨.here, Or.inl hj⟩
    · rename_i hj
      rcases ih h with hp | ⟨hr, hf⟩
      · cases place with
        | some p => exact Or.inl hp
        | none =>
          cases hp
          exact Or.inr ⟨.here, Or.inr hj⟩
      · exact Or.inr ⟨.there (by simp [hj]) hr, hf⟩
    · rename_i hj
      split_ifs at h
      exact hskip (by simp [hj]) h
    · rename_i hj
      exact hskip (by simp [hj]) h

/-- A new key has no place only where all slots have keys. -/
lemma search_stuck (h : search eq t k is place = .missing none) (hi : i ∈ is) (hlt : i < t.length) :
    ∃ k' v, t[i]? = some (.full k' v) := by
  induction is generalizing place with
  | nil => cases hi
  | cons j js ih =>
    have hnone : ∀ {is p}, search eq t k is p = .missing none → p = none := by
      intro is
      induction is with
      | nil =>
        intro p h
        cases h
        rfl
      | cons b bs ih =>
        intro p h
        unfold search at h
        split at h
        · cases p <;> cases h
        · cases p with
          | none => rfl
          | some p => cases ih h
        · split_ifs at h
          exact ih h
        · exact ih h
    unfold search at h
    split at h
    · cases place <;> cases h
    · have := hnone h
      cases place <;> cases this
    · rename_i k' v hj
      split_ifs at h
      rcases List.mem_cons.1 hi with rfl | hi
      · exact ⟨k', v, hj⟩
      · exact ih h hi
    · rename_i hj
      rcases List.mem_cons.1 hi with rfl | hi
      · exact absurd hj (by simp [hlt])
      · exact ih h hi

/-- All slots are tried. -/
lemma mem_probes {n start : ℕ} (hi : i < n) : i ∈ probes n start := by
  refine List.mem_map.2 ⟨(i + n - start % n) % n, List.mem_range.2 (Nat.mod_lt _ (by omega)), ?_⟩
  have hs : start % n < n := Nat.mod_lt _ (by omega)
  rw [Nat.add_mod_mod, ← Nat.mod_add_mod, show start % n + (i + n - start % n) = i + n by omega, Nat.add_mod_right,
    Nat.mod_eq_of_lt hi]

/-- A slot that is not empty is not made empty. -/
lemma Reaches.mono (h : Reaches t is i) (ht : ∀ j : ℕ, t'[j]? = some .empty → t[j]? = some .empty) : Reaches t' is i := by
  induction h with
  | here => exact .here
  | there hj _ ih => exact .there (fun he => hj (ht _ he)) ih

lemma set_empty {s : Slot κ ν} (hs : s ≠ .empty) (h : (t.set i s)[j]? = some .empty) : t[j]? = some .empty := by
  rw [List.getElem?_set] at h
  split_ifs at h with hij hlt
  · exact absurd (Option.some.inj h) hs
  · exact h

end Search

/-! ### Well-formed tables -/

/-- Keys are compared by an equivalence, and the hash agrees with it on `K`. -/
structure Coherent (eq : κ → κ → Bool) (hash : κ → ℕ) (K : κ → Prop) : Prop where
  refl : ∀ k, eq k k = true
  symm : ∀ {k k'}, eq k k' = true → eq k' k = true
  trans : ∀ {k k' k''}, eq k k' = true → eq k' k'' = true → eq k k'' = true
  hash_eq : ∀ {k k'}, K k → K k' → eq k k' = true → hash k = hash k'

/-- Each key is on the way of its hash, no two keys are equal, and all are in `K`. -/
structure Probed (eq : κ → κ → Bool) (hash : κ → ℕ) (K : κ → Prop) (t : List (Slot κ ν)) : Prop where
  reach : ∀ {i : ℕ} {k : κ} {v : ν}, t[i]? = some (.full k v) → Reaches t (probes t.length (hash k)) i
  distinct : ∀ {i j : ℕ} {k k' : κ} {v v' : ν}, t[i]? = some (.full k v) → t[j]? = some (.full k' v') → eq k k' = true → i = j
  keys : ∀ {i : ℕ} {k : κ} {v : ν}, t[i]? = some (.full k v) → K k

/-- A slot has the value of a key. -/
def Holds (eq : κ → κ → Bool) (t : List (Slot κ ν)) (k : κ) (v : ν) : Prop :=
  ∃ (i : ℕ) (k' : κ), t[i]? = some (.full k' v) ∧ eq k' k = true

/-- The table represents `f` on `K`. -/
structure Stores (eq : κ → κ → Bool) (hash : κ → ℕ) (K : κ → Prop) (t : List (Slot κ ν)) (f : κ → Option ν) : Prop
    extends Probed eq hash K t where
  holds : ∀ {k v}, K k → (Holds eq t k v ↔ f k = some v)

section Tables

variable {eq : κ → κ → Bool} {hash : κ → ℕ} {K : κ → Prop} {t t' : List (Slot κ ν)} {f : κ → Option ν} {k k' : κ} {v v' : ν}
  {i j : ℕ}

lemma stores_empty (n : ℕ) : Stores eq hash K (List.replicate n (Slot.empty : Slot κ ν)) fun _ => none := by
  have hnone : ∀ {i : ℕ} {k : κ} {v : ν}, (List.replicate n (Slot.empty : Slot κ ν))[i]? ≠ some (.full k v) := by
    intro i k v h
    rw [List.getElem?_replicate] at h
    split_ifs at h
    cases h
  refine ⟨⟨fun h => absurd h hnone, fun h => absurd h hnone, fun h => absurd h hnone⟩, fun _ => ?_⟩
  refine iff_of_false ?_ (by simp)
  rintro ⟨i, k', h, -⟩
  exact hnone h

/-- The slots behind a store. -/
lemma set_full {s : Slot κ ν} (h : (t.set i s)[j]? = some (.full k v)) :
    (j = i ∧ s = .full k v) ∨ (j ≠ i ∧ t[j]? = some (.full k v)) := by
  rw [List.getElem?_set] at h
  split_ifs at h with hij hlt
  · exact Or.inl ⟨hij.symm, Option.some.inj h⟩
  · exact Or.inr ⟨fun e => hij e.symm, h⟩

lemma lt_of_get (h : t[i]? = some (.full k v)) : i < t.length := (List.getElem?_eq_some_iff.1 h).1

/-- What is not found is not there. -/
lemma Probed.not_holds (hc : Coherent eq hash K) (h : Probed eq hash K t) (hk : K k) {r : Option ℕ}
    (hf : find eq hash t k = .missing r) : ¬ Holds eq t k v := by
  rintro ⟨i, k', hi, he⟩
  have hr := h.reach hi
  rw [hc.hash_eq (h.keys hi) hk he] at hr
  rw [search_missing hf hr hi] at he
  cases he

/-- A key in a slot where no equal key is elsewhere. -/
lemma Stores.store (hc : Coherent eq hash K) (h : Stores eq hash K t f) (he : eq k' k = true) (hk' : K k')
    (hi : i < t.length) (hr : Reaches t (probes t.length (hash k')) i)
    (hone : ∀ {j : ℕ} {k'' : κ} {v'' : ν}, t[j]? = some (.full k'' v'') → j ≠ i → eq k'' k = false)
    (hold : ∀ {k'' : κ} {v'' : ν}, t[i]? = some (.full k'' v'') → eq k'' k = true) (v : ν) :
    Stores eq hash K (t.set i (.full k' v)) (assign eq f k (some v)) := by
  have hset : (t.set i (.full k' v))[i]? = some (.full k' v) := List.getElem?_set_self hi
  have hmono : ∀ j : ℕ, (t.set i (.full k' v))[j]? = some .empty → t[j]? = some .empty := fun j => set_empty (by simp)
  refine ⟨⟨?_, ?_, ?_⟩, ?_⟩
  · intro j kj vj hj
    rw [List.length_set]
    refine Reaches.mono ?_ hmono
    rcases set_full hj with ⟨rfl, e⟩ | ⟨-, hj⟩
    · cases e
      exact hr
    · exact h.reach hj
  · intro j j' kj kj' vj vj' hj hj' hjj
    rcases set_full hj with ⟨rfl, e⟩ | ⟨hne, h1⟩ <;> rcases set_full hj' with ⟨rfl, e'⟩ | ⟨hne', h2⟩
    · rfl
    · cases e
      have := hc.trans (hc.symm hjj) he
      rw [hone h2 hne'] at this
      cases this
    · cases e'
      have := hc.trans hjj he
      rw [hone h1 hne] at this
      cases this
    · exact h.distinct h1 h2 hjj
  · intro j kj vj hj
    rcases set_full hj with ⟨rfl, e⟩ | ⟨-, hj⟩
    · cases e
      exact hk'
    · exact h.keys hj
  · intro k1 v1 hk1
    unfold assign
    split_ifs with h1
    · constructor
      · rintro ⟨j, kj, hj, hjk⟩
        rcases set_full hj with ⟨rfl, e⟩ | ⟨hne, hj⟩
        · cases e
          rfl
        · have := hc.trans hjk (hc.symm h1)
          rw [hone hj hne] at this
          cases this
      · intro e
        cases e
        exact ⟨i, k', hset, hc.trans he h1⟩
    · rw [← h.holds hk1]
      have hno : ∀ {kj}, eq kj k = true → eq kj k1 = true → False := fun ha hb => h1 (hc.trans (hc.symm ha) hb)
      constructor
      · rintro ⟨j, kj, hj, hjk⟩
        rcases set_full hj with ⟨rfl, e⟩ | ⟨-, hj⟩
        · cases e
          exact (hno he hjk).elim
        · exact ⟨j, kj, hj, hjk⟩
      · rintro ⟨j, kj, hj, hjk⟩
        rcases eq_or_ne j i with rfl | hne
        · exact (hno (hold hj) hjk).elim
        · exact ⟨j, kj, by rw [List.getElem?_set_ne hne.symm, hj], hjk⟩

/-! ### The rules for the operations -/

lemma used_set {s s' : Slot κ ν} (hi : t[i]? = some s') :
    used (t.set i s) + (if s'.isFull then 1 else 0) = used t + if s.isFull then 1 else 0 := by
  obtain ⟨hlt, rfl⟩ := List.getElem?_eq_some_iff.1 hi
  have hle : (if t[i].isFull then 1 else 0) ≤ used t := by
    split_ifs with hf
    · exact List.countP_pos_iff.2 ⟨t[i], List.getElem_mem hlt, hf⟩
    · exact Nat.zero_le _
  unfold used at *
  rw [List.countP_set hlt]
  omega

/-- Where all slots have keys the table is full. -/
lemma used_of_full (h : ∀ i < t.length, ∃ k v, t[i]? = some (.full k v)) : used t = t.length := by
  refine List.countP_eq_length.2 fun s hs => ?_
  obtain ⟨i, hlt, rfl⟩ := List.mem_iff_getElem.1 hs
  obtain ⟨k, v, hkv⟩ := h i hlt
  rw [(List.getElem?_eq_some_iff.1 hkv).2]
  rfl

/-- **A key gets a value**, if a slot has no key. -/
theorem Stores.put (hc : Coherent eq hash K) (h : Stores eq hash K t f) (hk : K k) (hroom : used t < t.length) (v : ν) :
    ∃ t', put eq hash t k v = some t' ∧ Stores eq hash K t' (assign eq f k (some v)) ∧ t'.length = t.length ∧
      used t' = used t + if (f k).isSome then 0 else 1 := by
  unfold Probe.put
  split
  · rename_i i hf
    obtain ⟨k', v', hi, he⟩ := search_found hf
    have hfk : f k = some v' := (h.holds hk).1 ⟨i, k', hi, he⟩
    refine ⟨t.set i (.full k' v), by rw [hi]; rfl, ?_, List.length_set, ?_⟩
    · refine h.store hc he (h.keys hi) (lt_of_get hi) (h.reach hi) (fun {j k'' v''} hj hne => ?_) (fun {k'' v''} hj => ?_) v
      · by_contra hjk
        exact hne (h.distinct hj hi (hc.trans (by simpa using hjk) (hc.symm he)))
      · rw [hi] at hj
        cases hj
        exact he
    · have := used_set (s := .full k' v) hi
      simp only [Slot.isFull, if_true] at this
      simp only [hfk, Option.isSome_some, if_true]
      omega
  · rename_i r hf
    have hno : ∀ {v}, ¬ Holds eq t k v := fun {v} => h.toProbed.not_holds hc hk hf
    have hfk : f k = none := Option.eq_none_iff_forall_ne_some.2 fun v hv => hno ((h.holds hk).2 hv)
    cases r with
    | none =>
      have hfull := used_of_full fun i hi => search_stuck hf (mem_probes hi) hi
      omega
    | some i =>
      rcases search_place hf with hp | ⟨hr, hfree⟩
      · cases hp
      · have hnot : ∀ {k'' v''}, t[i]? ≠ some (.full k'' v'') := by
          intro k'' v'' hi
          rcases hfree with hfree | hfree <;> rw [hi] at hfree <;> cases hfree
        obtain ⟨s, hi, hs⟩ : ∃ s, t[i]? = some s ∧ s.isFull = false := by
          rcases hfree with hfree | hfree <;> exact ⟨_, hfree, rfl⟩
        refine ⟨t.set i (.full k v), rfl, ?_, List.length_set, ?_⟩
        · refine h.store hc (hc.refl k) hk (List.getElem?_eq_some_iff.1 hi).1 hr (fun {j k'' v''} hj _ => ?_)
            (fun hj => absurd hj hnot) v
          by_contra hjk
          exact hno ⟨j, k'', hj, by simpa using hjk⟩
        · have := used_set (s := .full k v) hi
          rw [hs] at this
          simpa [Slot.isFull, hfk] using this

/-- **A key is taken out.** -/
theorem Stores.erase (hc : Coherent eq hash K) (h : Stores eq hash K t f) (hf : find eq hash t k = .found i) :
    Stores eq hash K (t.set i .tombstone) (assign eq f k none) ∧ used (t.set i .tombstone) + 1 = used t := by
  obtain ⟨k', v', hi, he⟩ := search_found hf
  have hmono : ∀ j : ℕ, (t.set i .tombstone)[j]? = some .empty → t[j]? = some .empty := fun j => set_empty (by simp)
  have hold : ∀ {j : ℕ} {k'' : κ} {v'' : ν}, (t.set i .tombstone)[j]? = some (.full k'' v'') →
      j ≠ i ∧ t[j]? = some (.full k'' v'') := by
    intro j k'' v'' hj
    rcases set_full hj with ⟨-, e⟩ | hj
    · cases e
    · exact hj
  refine ⟨⟨⟨?_, ?_, ?_⟩, ?_⟩, ?_⟩
  · intro j kj vj hj
    rw [List.length_set]
    exact (h.reach (hold hj).2).mono hmono
  · exact fun hj hj' => h.distinct (hold hj).2 (hold hj').2
  · exact fun hj => h.keys (hold hj).2
  · intro k1 v1 hk1
    unfold assign
    split_ifs with h1
    · refine iff_of_false ?_ (by simp)
      rintro ⟨j, kj, hj, hjk⟩
      exact (hold hj).1 (h.distinct (hold hj).2 hi (hc.trans hjk (hc.symm (hc.trans he h1))))
    · rw [← h.holds hk1]
      constructor
      · rintro ⟨j, kj, hj, hjk⟩
        exact ⟨j, kj, (hold hj).2, hjk⟩
      · rintro ⟨j, kj, hj, hjk⟩
        have hne : i ≠ j := by
          rintro rfl
          rw [hi] at hj
          cases hj
          exact h1 (hc.trans (hc.symm he) hjk)
        exact ⟨j, kj, by rw [List.getElem?_set_ne hne, hj], hjk⟩
  · have := used_set (s := .tombstone) hi
    simpa [Slot.isFull] using this

/-! ### A copy to another table -/

lemma used_eq_length_live : used t = (live t).length := by
  unfold used live
  induction t with
  | nil => rfl
  | cons s t ih =>
    rw [List.countP_cons, ih, List.filterMap_cons]
    cases s <;> rfl

lemma mem_live {p : κ × ν} : p ∈ live t ↔ ∃ i : ℕ, t[i]? = some (.full p.1 p.2) := by
  unfold live
  rw [List.mem_filterMap]
  constructor
  · rintro ⟨s, hs, hp⟩
    obtain ⟨i, hi⟩ := List.mem_iff_getElem?.1 hs
    cases s with
    | full k v =>
      cases hp
      exact ⟨i, hi⟩
    | _ => cases hp
  · rintro ⟨i, hi⟩
    exact ⟨_, List.mem_of_getElem? hi, rfl⟩

/-- No two pairs have equal keys. -/
def Apart (eq : κ → κ → Bool) (ps : List (κ × ν)) : Prop := ps.Pairwise fun p q => eq p.1 q.1 = false

lemma Probed.apart (h : Probed eq hash K t) : Apart eq (live t) := by
  unfold Apart live
  rw [List.pairwise_filterMap, List.pairwise_iff_getElem]
  intro i j hi hj hij p hp q hq
  have hfull : ∀ {s : Slot κ ν} {p}, s.pair = some p → s = .full p.1 p.2 := by
    intro s p hs
    cases s with
    | full k v =>
      cases hs
      rfl
    | _ => cases hs
  by_contra he
  have := h.distinct (List.getElem?_eq_some_iff.2 ⟨hi, hfull hp⟩) (List.getElem?_eq_some_iff.2 ⟨hj, hfull hq⟩)
    (by simpa using he)
  omega

/-- The pairs of a table are what it represents. -/
lemma Stores.live_iff (h : Stores eq hash K t f) (hk : K k) :
    f k = some v ↔ ∃ p ∈ live t, eq p.1 k = true ∧ p.2 = v := by
  rw [← h.holds hk]
  constructor
  · rintro ⟨i, k', hi, he⟩
    exact ⟨(k', v), mem_live.2 ⟨i, hi⟩, he, rfl⟩
  · rintro ⟨p, hp, he, rfl⟩
    obtain ⟨i, hi⟩ := mem_live.1 hp
    exact ⟨i, p.1, hi, he⟩

lemma putAll_stores (hc : Coherent eq hash K) {ps : List (κ × ν)} (h : Stores eq hash K t f) (hps : ∀ p ∈ ps, K p.1)
    (hnew : ∀ p ∈ ps, f p.1 = none) (ha : Apart eq ps) (hroom : used t + ps.length ≤ t.length) :
    ∃ t' f', putAll eq hash t ps = some t' ∧ Stores eq hash K t' f' ∧ t'.length = t.length ∧
      used t' = used t + ps.length ∧
      ∀ k, K k → ∀ v, f' k = some v ↔ (∃ p ∈ ps, eq p.1 k = true ∧ p.2 = v) ∨ ((∀ p ∈ ps, eq p.1 k = false) ∧ f k = some v) := by
  induction ps generalizing t f with
  | nil => exact ⟨t, f, rfl, h, rfl, rfl, fun k _ v => by simp⟩
  | cons p ps ih =>
    rw [List.length_cons] at hroom
    obtain ⟨hap, ha⟩ := List.pairwise_cons.1 ha
    have hk : K p.1 := hps p List.mem_cons_self
    obtain ⟨t1, hput, h1, hlen, hused⟩ := h.put hc hk (by omega) p.2
    rw [hnew p List.mem_cons_self] at hused
    simp only [Option.isSome_none, Bool.false_eq_true, if_false] at hused
    obtain ⟨t', f', hput', h', hlen', hused', hf'⟩ := ih h1 (fun q hq => hps q (List.mem_cons_of_mem _ hq))
      (fun q hq => by
        unfold assign
        rw [if_neg (by rw [hap q hq]; simp)]
        exact hnew q (List.mem_cons_of_mem _ hq)) ha (by omega)
    refine ⟨t', f', by simp only [putAll, hput, Option.bind_some, hput'], h', by omega, by rw [List.length_cons]; omega, ?_⟩
    intro k hkk v
    rw [hf' k hkk v]
    unfold assign
    rcases hpk : eq p.1 k with _ | _
    · simp [hpk]
    · have hrest : ∀ q ∈ ps, eq q.1 k = false := by
        intro q hq
        by_contra hqk
        have := hc.trans hpk (hc.symm (by simpa using hqk))
        rw [hap q hq] at this
        cases this
      constructor
      · rintro (⟨q, hq, hqk, -⟩ | ⟨-, e⟩)
        · rw [hrest q hq] at hqk
          cases hqk
        · exact Or.inl ⟨p, List.mem_cons_self, hpk, by simpa using e⟩
      · rintro (⟨q, hq, hqk, rfl⟩ | ⟨hall, -⟩)
        · rcases List.mem_cons.1 hq with rfl | hq
          · exact Or.inr ⟨hrest, by simp⟩
          · rw [hrest q hq] at hqk
            cases hqk
        · rw [hall p List.mem_cons_self] at hpk
          cases hpk

/-- **A table of another size** with the same pairs represents the same function. -/
theorem Stores.rehash (hc : Coherent eq hash K) (h : Stores eq hash K t f) {n : ℕ} (hn : used t ≤ n) :
    ∃ t', putAll eq hash (List.replicate n .empty) (live t) = some t' ∧ Stores eq hash K t' f ∧ t'.length = n ∧
      used t' = used t := by
  have hzero : used (List.replicate n (Slot.empty : Slot κ ν)) = 0 := by
    simp [used, List.countP_replicate, Slot.isFull]
  have hkeys : ∀ p ∈ live t, K p.1 := by
    intro p hp
    obtain ⟨i, hi⟩ := mem_live.1 hp
    exact h.keys hi
  obtain ⟨t', f', hput, h', hlen, hused, hf'⟩ := putAll_stores hc (stores_empty n) hkeys (fun _ _ => rfl) h.apart
    (by rw [hzero, List.length_replicate, ← used_eq_length_live]; omega)
  refine ⟨t', hput, ⟨h'.toProbed, fun hk => ?_⟩, by rw [hlen, List.length_replicate], ?_⟩
  · rw [h'.holds hk, hf' _ hk, h.live_iff hk]
    simp
  · rw [hused, hzero, used_eq_length_live, Nat.zero_add]

end Tables

end Wrensong.Lib.Probe
