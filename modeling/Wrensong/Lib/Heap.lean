import Mathlib.Data.List.Basic
import Mathlib.Tactic

/-!
# A heap of cells that are never given out twice

Addresses are numbers, handed out in order; a freed cell keeps its address. That makes "the same pointer" the same
number, so that a double free or a use after free is a fact about addresses.
-/

namespace Wrensong.Lib

/-- The cells allocated so far; the address of a cell is its position. -/
structure Heap (α : Type*) where
  cells : List α := []
  deriving DecidableEq, Repr

namespace Heap

variable {α : Type*} (h : Heap α) {a b : ℕ} {x : α}

/-- The cell at an address. -/
def get? (a : ℕ) : Option α := h.cells[a]?

/-- The address the next allocation gets. -/
def next : ℕ := h.cells.length

/-- An allocation; the new cell is at `h.next`. -/
def alloc (x : α) : Heap α := ⟨h.cells ++ [x]⟩

/-- A store to the cell at `a`. -/
def put (a : ℕ) (x : α) : Heap α := ⟨h.cells.set a x⟩

@[simp] lemma next_alloc : (h.alloc x).next = h.next + 1 := by simp [alloc, next]

@[simp] lemma next_put : (h.put a x).next = h.next := by simp [put, next]

lemma get?_alloc : (h.alloc x).get? a = if a = h.next then some x else h.get? a := by
  unfold alloc get? next
  split_ifs with e
  · simp [e]
  · rw [List.getElem?_append]
    split_ifs with hl
    · rfl
    · rw [List.getElem?_eq_none (by simp; omega), List.getElem?_eq_none (by omega)]

lemma get?_put : (h.put a x).get? b = if a = b then (h.get? b).map fun _ => x else h.get? b := by
  unfold put get?
  rw [List.getElem?_set]
  split_ifs with e hl
  · subst e
    simp [hl]
  · subst e
    simp [List.getElem?_eq_none (not_lt.1 hl)]
  · rfl

variable {h}

lemma lt_next (hx : h.get? a = some x) : a < h.next := (List.getElem?_eq_some_iff.1 hx).1

lemma get?_next : h.get? h.next = none := List.getElem?_eq_none le_rfl

lemma get?_alloc_of_get? {y : α} (hx : h.get? a = some x) : (h.alloc y).get? a = some x := by
  rw [get?_alloc, if_neg (by have := lt_next hx; omega), hx]

@[simp] lemma get?_alloc_next : (h.alloc x).get? h.next = some x := by rw [get?_alloc, if_pos rfl]

lemma get?_put_self {y : α} (hx : h.get? a = some x) : (h.put a y).get? a = some y := by
  rw [get?_put, if_pos rfl, hx]
  rfl

lemma get?_put_ne (hne : a ≠ b) : (h.put a x).get? b = h.get? b := by rw [get?_put, if_neg hne]

/-- A cell behind an allocation is the new one, or was there before. -/
lemma get?_alloc_cases {y : α} (hy : (h.alloc x).get? a = some y) : (a = h.next ∧ y = x) ∨ h.get? a = some y := by
  rw [get?_alloc] at hy
  split_ifs at hy with e
  · exact Or.inl ⟨e, (Option.some.inj hy).symm⟩
  · exact Or.inr hy

/-- A cell behind a store is the one that was stored, or another one as it was. -/
lemma get?_put_cases {y : α} (hy : (h.put a x).get? b = some y) : (b = a ∧ y = x) ∨ (b ≠ a ∧ h.get? b = some y) := by
  rcases eq_or_ne b a with rfl | hne
  · rw [get?_put, if_pos rfl] at hy
    obtain ⟨_, -, e⟩ := Option.map_eq_some_iff.1 hy
    exact Or.inl ⟨rfl, e.symm⟩
  · rw [get?_put_ne hne.symm] at hy
    exact Or.inr ⟨hne, hy⟩

/-- A heap is its cells. -/
lemma ext_get? {h' : Heap α} (hs : ∀ a, h.get? a = h'.get? a) : h = h' := by
  cases h
  cases h'
  exact congrArg Heap.mk (List.ext_getElem? hs)

/-! ### All cells at once -/

/-- A function on every cell. -/
def map {β : Type*} (f : α → β) (h : Heap α) : Heap β := ⟨h.cells.map f⟩

section Map

variable {β : Type*} {f : α → β}

@[simp] lemma next_map : (h.map f).next = h.next := by simp [map, next]

lemma get?_map : (h.map f).get? a = (h.get? a).map f := by simp [map, get?]

lemma get?_map_cases {y : β} (hy : (h.map f).get? a = some y) : ∃ x, h.get? a = some x ∧ f x = y := by
  rw [get?_map] at hy
  exact Option.map_eq_some_iff.1 hy

lemma map_put : (h.put a x).map f = (h.map f).put a (f x) := by simp [map, put, List.map_set]

lemma map_put_same {y : α} (hx : h.get? a = some x) (hf : f y = f x) : (h.put a y).map f = h.map f := by
  have hx' : (h.map f).cells[a]? = some (f x) := get?_map.trans (congrArg (Option.map f) hx)
  obtain ⟨hlt, hcell⟩ := List.getElem?_eq_some_iff.1 hx'
  rw [map_put, hf, ← hcell]
  exact congrArg Heap.mk (List.set_getElem_self hlt)

end Map

/-- The sum of a weight over the cells. -/
def total {M : Type*} [AddCommMonoid M] (w : α → M) (h : Heap α) : M := (h.cells.map w).sum

section Total

variable {M : Type*} [AddCommMonoid M] {w : α → M} {y : α}

/-- A cell apart from the others, before and behind a store. -/
lemma total_split (hx : h.get? a = some x) : ∃ m, h.total w = w x + m ∧ ∀ y, (h.put a y).total w = w y + m := by
  obtain ⟨hlt, rfl⟩ := List.getElem?_eq_some_iff.1 hx
  refine ⟨((h.cells.take a).map w).sum + ((h.cells.drop (a + 1)).map w).sum, ?_, fun y => ?_⟩
  · have hcells : h.cells = h.cells.take a ++ h.cells[a] :: h.cells.drop (a + 1) := by
      rw [← List.drop_eq_getElem_cons hlt, List.take_append_drop]
    calc h.total w = ((h.cells.take a ++ h.cells[a] :: h.cells.drop (a + 1)).map w).sum := by rw [← hcells]; rfl
      _ = _ := by
        simp only [List.map_append, List.map_cons, List.sum_append, List.sum_cons]
        exact add_left_comm _ _ _
  · have hset : (h.put a y).cells = h.cells.take a ++ y :: h.cells.drop (a + 1) :=
      List.set_eq_take_append_cons_drop.trans (if_pos hlt)
    unfold total
    rw [hset]
    simp only [List.map_append, List.map_cons, List.sum_append, List.sum_cons]
    exact add_left_comm _ _ _

lemma total_put_same (hx : h.get? a = some x) (hw : w y = w x) : (h.put a y).total w = h.total w := by
  obtain ⟨m, h1, h2⟩ := total_split (w := w) hx
  rw [h2, h1, hw]

lemma total_map {f : α → α} : (h.map f).total w = h.total fun x => w (f x) := by
  simp [map, total, Function.comp_def]

lemma total_congr {w' : α → M} (hw : ∀ x, w x = w' x) : h.total w = h.total w' := by rw [funext hw]

lemma total_zero (hw : ∀ {a x}, h.get? a = some x → w x = 0) : h.total w = 0 := by
  refine List.sum_eq_zero fun y hy => ?_
  obtain ⟨x, hx, rfl⟩ := List.mem_map.1 hy
  obtain ⟨a, ha⟩ := List.mem_iff_getElem?.1 hx
  exact hw ha

end Total

section Weight

variable {w : α → ℕ}

lemma le_total (hx : h.get? a = some x) : w x ≤ h.total w := by
  obtain ⟨m, hm, -⟩ := total_split (w := w) hx
  omega

lemma total_map_le {f : α → α} {k : ℕ} (hf : ∀ x, w (f x) ≤ w x + k) : (h.map f).total w ≤ h.total w + h.next * k := by
  have hle : ∀ l : List α, ((l.map f).map w).sum ≤ (l.map w).sum + l.length * k := by
    intro l
    induction l with
    | nil => simp
    | cons x l ih =>
      have := hf x
      simp only [List.map_cons, List.sum_cons, List.length_cons, Nat.add_mul] at ih ⊢
      omega
  exact hle h.cells

lemma total_eq_zero : h.total w = 0 ↔ ∀ {a x}, h.get? a = some x → w x = 0 := by
  refine ⟨fun h0 a x hx => ?_, total_zero⟩
  have := le_total (w := w) hx
  omega

end Weight

end Heap

end Wrensong.Lib
