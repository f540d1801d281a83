import Mathlib.Data.List.Infix
import Mathlib.Data.List.Basic
import Mathlib.Tactic

/-!
# Where a list occurs in another one

`OccursAt d s i` says that `d` occurs in `s` at the index `i`, and `FirstAt` that it is the first place from an index on.
`Skips` is what a search needs to know about how far it can go on when the window does not match, by the last letter in
the window alone (`Skips.not_at`).

`Cut d s ps` cuts `s` at the places where `d` occurs, from the front. The parts give `s` again (`Cut.intercalate`), and `d`
occurs in none of them.
-/

namespace Wrensong.Lib

variable {α : Type*} {d s x y : List α} {i j k : ℕ} {ps qs : List (List α)}

/-- `d` stands in `s` at the index. -/
def OccursAt (d s : List α) (i : ℕ) : Prop := d <+: s.drop i

instance [DecidableEq α] : Decidable (OccursAt d s i) := inferInstanceAs (Decidable (_ <+: _))

/-- The first place from `k` on. -/
structure FirstAt (d s : List α) (k i : ℕ) : Prop where
  le : k ≤ i
  occurs : OccursAt d s i
  least : ∀ j, k ≤ j → j < i → ¬ OccursAt d s j

section Places

lemma OccursAt.getElem? (h : OccursAt d s i) (hk : k < d.length) : s[i + k]? = d[k]? := by
  obtain ⟨t, ht⟩ := h
  rw [← List.getElem?_drop, ← ht, List.getElem?_append_left hk]

lemma OccursAt.le_length (h : OccursAt d s i) (hd : d ≠ []) : i + d.length ≤ s.length := by
  have hle := h.length_le
  have hpos := List.length_pos_of_ne_nil hd
  rw [List.length_drop] at hle
  omega

lemma at_append (hle : x.length ≤ i) : OccursAt d (x ++ y) i ↔ OccursAt d y (i - x.length) := by
  unfold OccursAt
  rw [List.drop_append, List.drop_of_length_le hle, List.nil_append]

lemma at_length_append : OccursAt d (x ++ (d ++ y)) x.length := by
  rw [at_append le_rfl, Nat.sub_self]
  exact List.prefix_append d y

lemma exists_at_iff : (∃ i, OccursAt d s i) ↔ d <:+: s := by
  constructor
  · rintro ⟨i, t, ht⟩
    exact ⟨s.take i, t, by rw [List.append_assoc, ht, List.take_append_drop]⟩
  · rintro ⟨x, y, rfl⟩
    rw [List.append_assoc]
    exact ⟨x.length, at_length_append⟩

/-- What stands before the first place, and behind it. -/
lemma FirstAt.split (h : FirstAt d s k i) (hd : d ≠ []) :
    s = s.take i ++ (d ++ s.drop (i + d.length)) ∧ (s.take i).length = i := by
  have hle := h.occurs.le_length hd
  obtain ⟨t, ht⟩ := h.occurs
  have hrest : s.drop (i + d.length) = t := by rw [← List.drop_drop, ← ht, List.drop_left]
  refine ⟨?_, List.length_take_of_le (by omega)⟩
  rw [hrest, ht, List.take_append_drop]

lemma FirstAt.unique (h : FirstAt d s k i) (h' : FirstAt d s k j) : i = j := by
  rcases Nat.lt_trichotomy i j with hlt | rfl | hlt
  · exact absurd h.occurs (h'.least i h.le hlt)
  · rfl
  · exact absurd h'.occurs (h.least j h'.le hlt)

lemma exists_firstAt (h : d <:+: s) : ∃ i, FirstAt d s 0 i := by
  classical
  have hex := exists_at_iff.2 h
  exact ⟨Nat.find hex, Nat.zero_le _, Nat.find_spec hex, fun j _ hj => Nat.find_min hex hj⟩

end Places

/-! ### Going on by the last letter -/

/-- How far the window can go on is positive, at most its length, and no more than from the letter to the end. -/
structure Skips (d : List α) (shift : α → ℕ) : Prop where
  pos : ∀ c, 0 < shift c
  le : ∀ c, shift c ≤ d.length
  last : ∀ {c k}, k + 1 < d.length → d[k]? = some c → shift c ≤ d.length - 1 - k

/-- **The places that are left out** are none. -/
theorem Skips.not_at {shift : α → ℕ} (h : Skips d shift) {c : α} (hc : s[i + (d.length - 1)]? = some c) (hij : i < j)
    (hj : j < i + shift c) : ¬ OccursAt d s j := by
  intro hat
  have hle := h.le c
  have hk : d.length - 1 - (j - i) < d.length := by omega
  have hletter := hat.getElem? hk
  rw [show j + (d.length - 1 - (j - i)) = i + (d.length - 1) by omega, hc] at hletter
  have := h.last (by omega) hletter.symm
  omega

/-! ### Cutting a list -/

/-- `s`, cut where `d` stands, from the front on. -/
inductive Cut (d : List α) : List α → List (List α) → Prop
  | last {s : List α} (h : ¬ d <:+: s) : Cut d s [s]
  | cut {x y : List α} {ps : List (List α)} (h : ∀ j, j < x.length → ¬ OccursAt d (x ++ (d ++ y)) j) (hrest : Cut d y ps) :
    Cut d (x ++ (d ++ y)) (x :: ps)

namespace Cut

lemma ne_nil (h : Cut d s ps) : ps ≠ [] := by
  cases h <;> simp

/-- **The parts with `d` between them** are the list. -/
theorem intercalate (h : Cut d s ps) : d.intercalate ps = s := by
  induction h with
  | last h => simp
  | cut h hrest ih =>
    rename_i x y ps
    obtain ⟨q, qs, rfl⟩ := List.exists_cons_of_ne_nil hrest.ne_nil
    rw [List.intercalate_cons_cons, ih, List.append_assoc]

/-- **No part has `d` in it.** -/
theorem not_infix (h : Cut d s ps) (hd : d ≠ []) : ∀ p ∈ ps, ¬ d <:+: p := by
  induction h with
  | last h => simpa using h
  | cut h hrest ih =>
    rename_i x y ps
    intro p hp
    rcases List.mem_cons.1 hp with rfl | hp
    · intro hin
      obtain ⟨i, hi⟩ := exists_at_iff.2 hin
      have hle := hi.le_length hd
      have hpos := List.length_pos_of_ne_nil hd
      refine h i (by omega) ?_
      unfold OccursAt
      rw [List.drop_append_of_le_length (by omega)]
      exact hi.trans (List.prefix_append _ _)
    · exact ih p hp

/-- Every list can be cut. -/
theorem exists_cut (hd : d ≠ []) (s : List α) : ∃ ps, Cut d s ps := by
  induction hn : s.length using Nat.strong_induction_on generalizing s with
  | _ n ih =>
    by_cases h : d <:+: s
    · obtain ⟨i, hi⟩ := exists_firstAt h
      obtain ⟨he, hlen⟩ := hi.split hd
      have hle := hi.occurs.le_length hd
      have hpos := List.length_pos_of_ne_nil hd
      obtain ⟨ps, hps⟩ := ih _ (by rw [List.length_drop]; omega) (s.drop (i + d.length)) rfl
      refine ⟨s.take i :: ps, ?_⟩
      have hcut := Cut.cut (x := s.take i) (fun j hj => ?_) hps
      · rwa [← he] at hcut
      · rw [← he]
        exact hi.least j (Nat.zero_le j) (hlen ▸ hj)
    · exact ⟨[s], .last h⟩

/-- There is one way to cut. -/
theorem unique (h : Cut d s ps) (h' : Cut d s qs) : ps = qs := by
  induction h generalizing qs with
  | last h =>
    cases h' with
    | last => rfl
    | cut _ _ => exact absurd (exists_at_iff.1 ⟨_, at_length_append⟩) h
  | cut h hrest ih =>
    rename_i x y ps
    generalize hs : x ++ (d ++ y) = s at h'
    cases h' with
    | last h' =>
      subst hs
      exact absurd (exists_at_iff.1 ⟨_, at_length_append⟩) h'
    | cut h' hrest' =>
      rename_i x' y' qs
      have hlen : x.length = x'.length := by
        refine FirstAt.unique (k := 0) ⟨Nat.zero_le _, at_length_append (y := y), fun j _ hj => h j hj⟩
          ⟨Nat.zero_le _, ?_, fun j _ hj => ?_⟩
        · rw [hs]
          exact at_length_append
        · rw [hs]
          exact h' j hj
      obtain ⟨rfl, he⟩ := List.append_inj hs hlen
      rw [ih (List.append_cancel_left he ▸ hrest')]

end Cut

end Wrensong.Lib
