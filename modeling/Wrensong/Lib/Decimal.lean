import Wrensong.Lib.Bytes
import Mathlib.Data.Nat.Digits.Defs

/-!
# Numbers in decimal text

`natural` is the number that a text of digits denotes. The library functions read it from the left (`digitsVal_eq`);
`strtol` gives it unless it is too large for `long`, and `atoi` exactly if it is an `int` (`atoi_eq_iff`).
-/

namespace Wrensong.Lib.Bytes

/-- The number that a text of one or more digits denotes. -/
def natural (v : List UInt8) : Option ℕ :=
  if v ≠ [] ∧ v.all isDigit then some (Nat.ofDigits 10 (v.reverse.map fun b => b.toNat - 48)) else none

section Decimal

variable {v : List UInt8} {n : ℕ}

/-- Reading digits from the left gives what they denote. -/
lemma digitsVal_eq (l : List UInt8) : digitsVal l = Nat.ofDigits 10 (l.reverse.map fun b => b.toNat - 48) := by
  induction l using List.reverseRecOn with
  | nil => rfl
  | append_singleton l b ih =>
    have hstep : digitsVal (l ++ [b]) = digitsVal l * 10 + (b.toNat - 48) := by simp [digitsVal]
    rw [hstep, ih, List.reverse_append, List.reverse_singleton, List.singleton_append, List.map_cons, Nat.ofDigits_cons]
    omega

lemma signOf_cases (v : List UInt8) :
    (∃ t, v = 45 :: t ∧ signOf v = (-1, t)) ∨ (∃ t, v = 43 :: t ∧ signOf v = (1, t)) ∨ signOf v = (1, v) := by
  unfold signOf
  split
  · exact Or.inl ⟨_, rfl, rfl⟩
  · exact Or.inr (Or.inl ⟨_, rfl, rfl⟩)
  · exact Or.inr (Or.inr rfl)

/-- A digit is no white space. -/
lemma isSpace_of_isDigit {b : UInt8} (h : isDigit b = true) : isSpace b = false := by
  simp only [isDigit, Bool.and_eq_true, decide_eq_true_eq] at h
  obtain ⟨h1, h2⟩ := h
  have h48 : 48 ≤ b.toNat := UInt8.le_iff_toNat_le.1 h1
  have hsp : b ≠ SP := by
    rintro rfl
    exact absurd h48 (by decide)
  have h13 : ¬ b ≤ 13 := by
    intro hle
    have : b.toNat ≤ 13 := UInt8.le_iff_toNat_le.1 hle
    omega
  simp [isSpace, hsp, h13]

lemma dropWhile_isSpace (hne : v ≠ []) (hall : v.all isDigit = true) : v.dropWhile isSpace = v := by
  obtain ⟨b, t, rfl⟩ := List.exists_cons_of_ne_nil hne
  have hb : isDigit b = true := List.all_eq_true.1 hall b (List.mem_cons_self ..)
  rw [List.dropWhile_cons_of_neg (by simp [isSpace_of_isDigit hb])]

/-- Digits have no sign. -/
lemma signOf_digits (hall : v.all isDigit = true) : signOf v = (1, v) := by
  rcases signOf_cases v with ⟨t, rfl, -⟩ | ⟨t, rfl, -⟩ | h
  · exact absurd (List.all_eq_true.1 hall 45 (List.mem_cons_self ..)) (by decide)
  · exact absurd (List.all_eq_true.1 hall 43 (List.mem_cons_self ..)) (by decide)
  · exact h

lemma strtol_natural (h : natural v = some n) : strtol v = min (2 ^ 63 - 1) (n : Int) := by
  unfold natural at h
  split_ifs at h with hd
  obtain ⟨hne, hall⟩ := hd
  have hval : digitsVal (v.takeWhile isDigit) = n := by
    rw [List.takeWhile_eq_self_iff.2 (by simpa using hall), digitsVal_eq]
    exact Option.some.inj h
  simp only [strtol, dropWhile_isSpace hne hall, signOf_digits hall, hval, one_mul]
  omega

/-- **`atoi` on digits** gives their number exactly if it is an `int`. -/
theorem atoi_eq_iff (h : natural v = some n) : atoi v = n ↔ n < 2 ^ 31 := by
  have hlt : atoi v < 2 ^ 31 := Int.bmod_lt (by decide)
  constructor
  · omega
  · intro hn
    unfold atoi
    rw [strtol_natural h, min_eq_right (by omega), Int.bmod_eq_of_le] <;> omega

end Decimal

end Wrensong.Lib.Bytes
