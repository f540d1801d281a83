import Mathlib.Data.List.ReduceOption
import Mathlib.Tactic

/-!
# Iterators over an array of slots

An array of slots, some of them empty, and an iterator that looks for the next slot in use. `NextUsed` and `NoneUsed` are
what such a search can meet. `calls_eq` is the rule for an iterator: if a call made at the position `i` delivers the first
used slot from `i` on and goes behind it, and says that nothing is left where there is none, then the calls deliver the
used slots in their order, each once, and nothing afterwards.
-/

namespace Wrensong.Lib.Iterator

variable {S T : Type*}

/-- What `n` calls in a row deliver: an item, or `none` at the end. There is no result where a call has none. -/
def calls (next : S → Option (Option T × S)) : ℕ → S → Option (List (Option T))
  | 0, _ => some []
  | n + 1, s => (next s).bind fun r => (calls next n r.2).map fun rs => r.1 :: rs

/-- The first used slot from `i` on is `j`, with `x`. -/
def NextUsed (slots : List (Option T)) (i j : ℕ) (x : T) : Prop :=
  i ≤ j ∧ slots[j]? = some (some x) ∧ ∀ k, i ≤ k → k < j → slots[k]? = some none

/-- No slot from `i` on is used. -/
def NoneUsed (slots : List (Option T)) (i : ℕ) : Prop := ∀ k, i ≤ k → k < slots.length → slots[k]? = some none

variable {slots : List (Option T)} {i j : ℕ} {x : T}

lemma NextUsed.lt (h : NextUsed slots i j x) : j < slots.length := (List.getElem?_eq_some_iff.1 h.2.1).1

lemma noneUsed_length : NoneUsed slots slots.length := fun _ h1 h2 => absurd h2 (not_lt.2 h1)

lemma noneUsed_of_le (h : slots.length ≤ i) : NoneUsed slots i := fun _ h1 h2 => absurd h2 (by omega)

/-- A search that starts at an empty slot goes on at the next one. -/
lemma nextUsed_succ (h : slots[i]? = some none) (hn : NextUsed slots (i + 1) j x) : NextUsed slots i j x := by
  obtain ⟨hle, hj, hk⟩ := hn
  refine ⟨by omega, hj, fun k h1 h2 => ?_⟩
  rcases Nat.eq_or_lt_of_le h1 with rfl | h1
  · exact h
  · exact hk k h1 h2

lemma noneUsed_succ (h : slots[i]? = some none) (hn : NoneUsed slots (i + 1)) : NoneUsed slots i := by
  intro k h1 h2
  rcases Nat.eq_or_lt_of_le h1 with rfl | h1
  · exact h
  · exact hn k h1 h2

/-- A search finds a used slot or comes to the end. -/
lemma search_cases (slots : List (Option T)) (i : ℕ) : NoneUsed slots i ∨ ∃ j x, NextUsed slots i j x := by
  by_cases hlen : slots.length ≤ i
  · exact Or.inl (noneUsed_of_le hlen)
  rw [not_le] at hlen
  cases hi : slots[i] with
  | some x => exact Or.inr ⟨i, x, le_rfl, by rw [List.getElem?_eq_getElem hlen, hi], fun k h1 h2 => absurd h1 (by omega)⟩
  | none =>
    have he : slots[i]? = some none := by rw [List.getElem?_eq_getElem hlen, hi]
    rcases search_cases slots (i + 1) with h | ⟨j, x, h⟩
    · exact Or.inl (noneUsed_succ he h)
    · exact Or.inr ⟨j, x, nextUsed_succ he h⟩
termination_by slots.length - i

/-- What does not change over an empty slot is the same where the search begins and where it ends. -/
lemma NextUsed.eq {α : Type*} {f : ℕ → α} (h : NextUsed slots i j x)
    (hf : ∀ k, slots[k]? = some none → f k = f (k + 1)) : f i = f j := by
  obtain ⟨hle, -, hk⟩ := h
  induction hle using Nat.decreasingInduction with
  | self => rfl
  | of_succ k hlt ih => rw [hf k (hk k le_rfl hlt), ih fun k' h1 h2 => hk k' (by omega) h2]

lemma NoneUsed.eq {α : Type*} {f : ℕ → α} (h : NoneUsed slots i) (hi : i ≤ slots.length)
    (hf : ∀ k, slots[k]? = some none → f k = f (k + 1)) : f i = f slots.length := by
  induction hi using Nat.decreasingInduction with
  | self => rfl
  | of_succ k hlt ih => rw [hf k (h k le_rfl hlt), ih fun k' h1 h2 => h k' (by omega) h2]

lemma drop_of_getElem? {o : Option T} (h : slots[i]? = some o) : slots.drop i = o :: slots.drop (i + 1) := by
  obtain ⟨hlt, rfl⟩ := List.getElem?_eq_some_iff.1 h
  exact List.drop_eq_getElem_cons hlt

lemma reduceOption_drop_succ (k : ℕ) (h : slots[k]? = some none) :
    (slots.drop k).reduceOption = (slots.drop (k + 1)).reduceOption := by
  rw [drop_of_getElem? h, List.reduceOption_cons_of_none]

lemma NextUsed.drop (h : NextUsed slots i j x) :
    (slots.drop i).reduceOption = x :: (slots.drop (j + 1)).reduceOption := by
  rw [h.eq reduceOption_drop_succ, drop_of_getElem? h.2.1, List.reduceOption_cons_of_some]

lemma NoneUsed.drop (h : NoneUsed slots i) : (slots.drop i).reduceOption = [] := by
  rcases le_total i slots.length with hi | hi
  · rw [h.eq hi reduceOption_drop_succ, List.drop_length]
    rfl
  · rw [List.drop_eq_nil_of_le hi]
    rfl

/-- The list that calls deliver, one call longer. -/
lemma take_padded {α : Type*} (l : List α) (a : α) (n : ℕ) :
    (l ++ List.replicate n a).take n = (l ++ List.replicate (n + 1) a).take n := by
  rw [List.take_append, List.take_append, List.take_replicate, List.take_replicate]
  congr 2
  omega

/-- **What an iterator delivers.** `P i s` says that the state `s` stands at the position `i`. -/
theorem calls_eq {next : S → Option (Option T × S)} {P : ℕ → S → Prop}
    (hnext : ∀ {i s j x}, P i s → NextUsed slots i j x → ∃ s', next s = some (some x, s') ∧ P (j + 1) s')
    (hend : ∀ {i s}, P i s → NoneUsed slots i → ∃ s', next s = some (none, s') ∧ P slots.length s') (n : ℕ) {s : S}
    (hs : P i s) :
    calls next n s = some (((slots.drop i).reduceOption.map some ++ List.replicate n none).take n) := by
  induction n generalizing i s with
  | zero => rfl
  | succ n ih =>
    rcases search_cases slots i with h | ⟨j, x, h⟩
    · obtain ⟨s', h1, hs'⟩ := hend hs h
      have hrest := ih hs'
      rw [noneUsed_length.drop] at hrest
      rw [calls, h1, Option.bind_some, hrest, h.drop]
      simp [List.replicate_succ]
    · obtain ⟨s', h1, hs'⟩ := hnext hs h
      rw [calls, h1, Option.bind_some, ih hs', h.drop, take_padded]
      rfl

end Wrensong.Lib.Iterator
