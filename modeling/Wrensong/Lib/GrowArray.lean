import Mathlib.Data.List.Basic
import Mathlib.Tactic

/-!
# Arrays that grow by a fixed step

An array of cells that is reallocated whenever its size is a multiple of the step `k`: the capacity is then the size and
`k` more. `GrowArray k α` carries the invariant that makes this safe, so that a push always stores below the capacity
(`length_lt_capAfter`). The size and the capacity asked for are of the type `int`: a push is possible as long as the capacity
does not leave it (`Grows`), which is up to the size `maxSize k` (`grows_iff`). What an array holds is `cells`.
-/

namespace Wrensong.Lib

/-- The greatest `int`. -/
def INT_MAX : ℕ := 2 ^ 31 - 1

namespace GrowArray

/-- The size at which an array cannot be grown any more: the last multiple of the step that is an `int`. -/
def maxSize (k : ℕ) : ℕ := k * (INT_MAX / k)

lemma maxSize_ten : maxSize 10 = 2147483640 := rfl

end GrowArray

/-- The cells in use and the capacity. Off a multiple of the step, the capacity reaches to the next multiple. -/
structure GrowArray (k : ℕ) (α : Type*) where
  cells : List α
  cap : ℕ
  length_le : cells.length ≤ cap
  room : cells.length % k ≠ 0 → k * (cells.length / k + 1) ≤ cap
  size_le : cells.length ≤ GrowArray.maxSize k
  deriving DecidableEq

namespace GrowArray

variable {k : ℕ} {α : Type*}

/-- A fresh array of capacity `k`. -/
def new (k : ℕ) (α : Type*) : GrowArray k α := ⟨[], k, by simp, by simp, by simp⟩

/-- Where a push asks for another capacity, it is an `int`. -/
def Grows (a : GrowArray k α) : Prop := a.cells.length % k = 0 → k + a.cells.length ≤ INT_MAX

instance : DecidablePred (Grows (k := k) (α := α)) := fun a => by unfold Grows; infer_instance

/-- The capacity at the time of the next store. -/
def capAfter (a : GrowArray k α) : ℕ := if a.cells.length % k = 0 then a.cells.length + k else a.cap

/-- **Every push stores below the capacity.** -/
theorem length_lt_capAfter (a : GrowArray k α) (hk : 0 < k) : a.cells.length < a.capAfter := by
  unfold capAfter
  split_ifs with h
  · omega
  · have hroom := a.room h
    have hdiv := Nat.div_add_mod a.cells.length k
    have hmod := Nat.mod_lt a.cells.length hk
    rw [Nat.mul_add] at hroom
    omega

/-- **How far an array can be pushed to.** -/
theorem grows_iff (a : GrowArray k α) (hk : 0 < k) : a.Grows ↔ a.cells.length < maxSize k := by
  have hmax := Nat.div_add_mod INT_MAX k
  have hrem := Nat.mod_lt INT_MAX hk
  constructor
  · intro h
    refine lt_of_le_of_ne a.size_le fun heq => ?_
    have hle := h (by rw [heq, maxSize, Nat.mul_mod_right])
    rw [heq, maxSize] at hle
    omega
  · intro hlt hzero
    obtain ⟨j, hj⟩ := Nat.dvd_of_mod_eq_zero hzero
    rw [hj, maxSize] at hlt
    have hstep : k * (j + 1) ≤ k * (INT_MAX / k) := Nat.mul_le_mul_left k (Nat.lt_of_mul_lt_mul_left hlt)
    rw [Nat.mul_add] at hstep
    omega

/-- Appends a cell, growing the array first where it is full. -/
def push (a : GrowArray k α) (hk : 0 < k) (h : a.Grows) (x : α) : GrowArray k α where
  cells := a.cells ++ [x]
  cap := a.capAfter
  length_le := by
    have := a.length_lt_capAfter hk
    simp
    omega
  room := by
    intro hne
    simp only [List.length_append, List.length_cons, List.length_nil, Nat.zero_add] at hne ⊢
    have hdiv : (a.cells.length + 1) / k = a.cells.length / k := by
      rw [Nat.succ_div, if_neg fun hd => hne (Nat.mod_eq_zero_of_dvd hd), Nat.add_zero]
    rw [hdiv]
    unfold capAfter
    split_ifs with h
    · have hd := Nat.div_add_mod a.cells.length k
      rw [Nat.mul_add]
      omega
    · exact a.room h
  size_le := by
    have := (a.grows_iff hk).1 h
    simp
    omega

/-- Changes the cell at an index. -/
def modify (a : GrowArray k α) (i : ℕ) (f : α → α) : GrowArray k α where
  cells := a.cells.modify i f
  cap := a.cap
  length_le := by simpa using a.length_le
  room := by simpa using a.room
  size_le := by simpa using a.size_le

@[simp] lemma cells_new : (new k α).cells = [] := rfl

lemma new_grows (h : k ≤ INT_MAX) : (new k α).Grows := fun _ => h

@[simp] lemma cells_push (a : GrowArray k α) (hk : 0 < k) (h : a.Grows) (x : α) :
    (a.push hk h x).cells = a.cells ++ [x] := rfl

@[simp] lemma cells_modify (a : GrowArray k α) (i : ℕ) (f : α → α) : (a.modify i f).cells = a.cells.modify i f := rfl

/-- Changing the cell between two lists of cells. -/
lemma modify_append_cons (l r : List α) (x : α) (f : α → α) : (l ++ x :: r).modify l.length f = l ++ f x :: r := by
  induction l with
  | nil => rfl
  | cons y l ih => simpa using ih

/-- A change that a function does not see. -/
lemma map_modify_of_eq {β : Type*} {f : α → β} {g : α → α} (h : ∀ x, f (g x) = f x) (l : List α) (i : ℕ) :
    (l.modify i g).map f = l.map f := by
  induction l generalizing i with
  | nil => rw [List.modify_nil]
  | cons x l ih =>
    cases i with
    | zero => simp [h]
    | succ i => simp [ih]

end GrowArray

end Wrensong.Lib
