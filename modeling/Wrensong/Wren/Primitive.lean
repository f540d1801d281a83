import Wrensong.Wren.Map

/-!
# Primitives

Ranges, how a method of the library ends, and what the checks of its arguments make of an index that is one.
-/

namespace Wrensong.Wren

/-- `ObjRange`. The bounds are finite. -/
structure ObjRange where
  rangeFrom : ℚ
  rangeTo : ℚ
  isInclusive : Bool

/-- What a method does: it ends with a value or a runtime error. There is no result where C does not say how. -/
abbrev Run := ExceptT String Option

/-- A function of the machine that does not fail. -/
def defined {α : Type} (x : Option α) : Run α := x.map Except.ok

/-- A check of the arguments. -/
def checked {α : Type} (x : Except String α) : Run α := some x

lemma defined_some {α : Type} (x : α) : defined (some x) = pure x := rfl

lemma checked_ok {α : Type} (x : α) : checked (.ok x) = pure x := rfl

lemma validateIndex_natCast {n : ℕ} {length : UInt32} (h : n < length.toNat) (argName : String) :
    validateIndex (.num n) length argName = .ok n := by
  have hneg : ¬ (n : ℤ) < 0 := by omega
  have hin : (0 : ℤ) ≤ n ∧ (n : ℤ) < length.toNat := by omega
  simp only [validateIndex, validateInt, Int.floor_natCast, Int.cast_natCast, if_true, bind, Except.bind, hneg, if_false,
    hin]
  rfl

lemma validateInt_intCast (z : ℤ) (argName : String) : validateInt (.num z) argName = .ok z := by
  simp [validateInt]

end Wrensong.Wren
