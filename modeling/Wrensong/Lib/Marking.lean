import Mathlib.Data.Finset.Card
import Mathlib.Logic.Relation
import Mathlib.Tactic

/-!
# Marking what can be reached

A node that is met for the first time becomes dark and goes to the gray ones; a gray one is taken out and its children are
met. `Marking` is the invariant: every dark node can be reached, and a dark node that is no longer gray has only dark
children. Where nothing is gray, the dark nodes are the ones that can be reached (`Marking.dark_iff`), and each has been
taken out once (`Marking.card`).
-/

namespace Wrensong.Lib

variable {α : Type*}

/-- There is a way from a root to the node. -/
def Reached (children : α → List α) (roots : List α) (x : α) : Prop :=
  ∃ r ∈ roots, Relation.ReflTransGen (fun x y => y ∈ children x) r x

section Reach

variable {children : α → List α} {roots : List α} {x y : α}

lemma Reached.child (h : Reached children roots x) (hy : y ∈ children x) : Reached children roots y := by
  obtain ⟨r, hr, hx⟩ := h
  exact ⟨r, hr, hx.tail hy⟩

lemma Reached.root (h : x ∈ roots) : Reached children roots x := ⟨x, h, .refl⟩

/-- What holds of the roots and goes over to children holds of all that can be reached. -/
lemma Reached.induction {P : α → Prop} (hr : ∀ x ∈ roots, P x) (hc : ∀ x, P x → ∀ y ∈ children x, P y)
    (h : Reached children roots x) : P x := by
  obtain ⟨r, hroot, hx⟩ := h
  induction hx with
  | refl => exact hr r hroot
  | tail _ hy ih => exact hc _ ih _ hy

end Reach

/-- The nodes that have been met, and of these the ones whose children have not been met and those whose children have. -/
structure Marks (α : Type*) where
  dark : Finset α := ∅
  gray : List α := []
  black : List α := []

/-- The invariant of the marking. -/
structure Marking (children : α → List α) (roots : List α) (s : Marks α) : Prop where
  reached : ∀ x ∈ s.dark, Reached children roots x
  dark_iff_mem : ∀ x, x ∈ s.dark ↔ x ∈ s.gray ∨ x ∈ s.black
  nodup : (s.gray ++ s.black).Nodup
  roots_dark : ∀ x ∈ roots, x ∈ s.dark
  closed : ∀ x ∈ s.black, ∀ y ∈ children x, y ∈ s.dark

variable {children : α → List α} {roots : List α} {s : Marks α} {x y : α} {xs : List α}

/-- **Where nothing is gray** the dark nodes are those that can be reached. -/
theorem Marking.dark_iff (h : Marking children roots s) (hg : s.gray = []) : x ∈ s.dark ↔ Reached children roots x := by
  refine ⟨h.reached x, Reached.induction h.roots_dark fun x hx y hy => ?_⟩
  have hx := (h.dark_iff_mem x).1 hx
  rw [hg] at hx
  rcases hx with hx | hx
  · cases hx
  · exact h.closed x hx y hy

variable [DecidableEq α]

namespace Marks

/-- A node is met. -/
def meet (s : Marks α) (x : α) : Marks α :=
  if x ∈ s.dark then s else { s with dark := insert x s.dark, gray := x :: s.gray }

def meetAll (s : Marks α) (xs : List α) : Marks α := xs.foldl meet s

/-- The last gray node is taken out and its children are met. -/
def blacken (children : α → List α) (s : Marks α) : Marks α :=
  match s.gray with
  | [] => s
  | x :: gray => ({ s with gray := gray, black := x :: s.black } : Marks α).meetAll (children x)

section Meet

lemma dark_meet : (s.meet x).dark = insert x s.dark := by
  unfold meet
  split_ifs with h
  · exact (Finset.insert_eq_self.2 h).symm
  · rfl

@[simp] lemma black_meet : (s.meet x).black = s.black := by
  unfold meet
  split_ifs <;> rfl

@[simp] lemma black_meetAll : (s.meetAll xs).black = s.black := by
  unfold meetAll
  induction xs generalizing s with
  | nil => rfl
  | cons x xs ih => exact ih.trans black_meet

lemma mem_dark_meetAll : y ∈ (s.meetAll xs).dark ↔ y ∈ s.dark ∨ y ∈ xs := by
  unfold meetAll
  induction xs generalizing s with
  | nil => simp
  | cons x xs ih =>
    rw [List.foldl_cons, ih, dark_meet, Finset.mem_insert, List.mem_cons]
    tauto

end Meet

end Marks

section Rules

/-- The part of the invariant that does not look at children: it is kept when a node is met. -/
structure Shape (s : Marks α) : Prop where
  dark_iff_mem : ∀ x, x ∈ s.dark ↔ x ∈ s.gray ∨ x ∈ s.black
  nodup : (s.gray ++ s.black).Nodup

lemma Shape.meet (h : Shape s) (x : α) : Shape (s.meet x) := by
  unfold Marks.meet
  split_ifs with hx
  · exact h
  · have hnot : x ∉ s.gray ++ s.black := by
      rw [List.mem_append, ← h.dark_iff_mem]
      exact hx
    refine ⟨fun y => ?_, List.nodup_cons.2 ⟨hnot, h.nodup⟩⟩
    rw [Finset.mem_insert, h.dark_iff_mem, List.mem_cons, or_assoc]

lemma Shape.meetAll (h : Shape s) (xs : List α) : Shape (s.meetAll xs) := by
  unfold Marks.meetAll
  induction xs generalizing s with
  | nil => exact h
  | cons x xs ih => exact ih (h.meet x)

/-- **The roots are met.** -/
lemma Marking.init : Marking children roots (({} : Marks α).meetAll roots) := by
  have hempty : Shape ({} : Marks α) := ⟨by simp, List.nodup_nil⟩
  have hshape := hempty.meetAll roots
  have hdark : ∀ y, y ∈ (({} : Marks α).meetAll roots).dark ↔ y ∈ roots := fun y => by
    rw [Marks.mem_dark_meetAll]
    simp
  refine ⟨fun x hx => .root ((hdark x).1 hx), hshape.dark_iff_mem, hshape.nodup, fun x hx => (hdark x).2 hx, ?_⟩
  intro x hx
  rw [Marks.black_meetAll] at hx
  cases hx

/-- **A gray node is taken out.** -/
lemma Marking.blacken (h : Marking children roots s) : Marking children roots (s.blacken children) := by
  unfold Marks.blacken
  split
  · exact h
  · rename_i x gray hg
    have hx : x ∈ s.dark := (h.dark_iff_mem x).2 (Or.inl (by rw [hg]; exact List.mem_cons_self))
    have hmem : ∀ y, y ∈ gray ∨ y ∈ x :: s.black ↔ y ∈ s.gray ∨ y ∈ s.black := by
      intro y
      rw [hg, List.mem_cons, List.mem_cons]
      tauto
    have hperm : (gray ++ x :: s.black).Perm (s.gray ++ s.black) := by
      rw [hg]
      exact List.perm_middle
    have hshape : Shape ({ s with gray := gray, black := x :: s.black } : Marks α) :=
      ⟨fun y => (h.dark_iff_mem y).trans (hmem y).symm, hperm.nodup_iff.2 h.nodup⟩
    have hnew := hshape.meetAll (children x)
    refine ⟨fun y hy => ?_, hnew.dark_iff_mem, hnew.nodup, fun y hy => ?_, fun y hy z hz => ?_⟩
    · rcases Marks.mem_dark_meetAll.1 hy with hy | hy
      · exact h.reached y hy
      · exact (h.reached x hx).child hy
    · exact Marks.mem_dark_meetAll.2 (Or.inl (h.roots_dark y hy))
    · rw [Marks.black_meetAll] at hy
      rw [Marks.mem_dark_meetAll]
      rcases List.mem_cons.1 hy with rfl | hy
      · exact Or.inr hz
      · exact Or.inl (h.closed y hy z hz)

/-- Each dark node is gray or has been taken out, once. -/
lemma Marking.card (h : Marking children roots s) : s.gray.length + s.black.length = s.dark.card := by
  have hset : s.dark = (s.gray ++ s.black).toFinset := by
    ext x
    rw [h.dark_iff_mem, List.mem_toFinset, List.mem_append]
  rw [hset, List.toFinset_card_of_nodup h.nodup, List.length_append]

end Rules

end Wrensong.Lib
