import Mathlib.Data.List.Basic
import Mathlib.Tactic

/-!
# Blocks of memory that are filled from the front

A block from `malloc` is a list of cells; a cell holds nothing before the first store. A store that does not lie inside
the block has no result. `Starts b l` says that the first cells of the block hold `l`, which is what a buffer with spare
room keeps from call to call: growing the block keeps it, and a store at its end makes it longer.

A read that meets a cell without a value has no result either. `Starts.loop` is the rule for a loop over the first cells: it
is the fold over what they hold.
-/

namespace Wrensong.Lib

/-- The cells of a block. -/
abbrev Block (α : Type*) := List (Option α)

namespace Block

variable {α : Type*}

/-- `malloc (n)`, where it does not fail. -/
def malloc (n : ℕ) : Block α := List.replicate n none

/-- `realloc (b, n)`, where it does not fail. -/
def realloc (b : Block α) (n : ℕ) : Block α := b.take n ++ List.replicate (n - b.length) none

/-- Stores `l` from the cell `i` on. -/
def store (b : Block α) (i : ℕ) (l : List α) : Option (Block α) :=
  if i + l.length ≤ b.length then some (b.take i ++ l.map some ++ b.drop (i + l.length)) else none

/-- The value in the cell `i`. -/
def read (b : Block α) (i : ℕ) : Option α := b[i]?.join

/-- The values in the first cells. -/
def first : ℕ → Block α → Option (List α)
  | 0, _ => some []
  | n + 1, some x :: b => (first n b).map (x :: ·)
  | _ + 1, _ => none

/-- `memcmp (b, c, n) == 0` -/
def memcmpEq [DecidableEq α] (b c : Block α) (n : ℕ) : Option Bool :=
  (b.first n).bind fun s => (c.first n).map fun t => decide (s = t)

/-- The first cells hold `l`. -/
def Starts (b : Block α) (l : List α) : Prop := l.map some <+: b

variable {b b' : Block α} {i n : ℕ} {l t : List α}

@[simp] lemma length_malloc : (malloc n : Block α).length = n := by simp [malloc]

@[simp] lemma length_realloc : (b.realloc n).length = n := by
  simp only [realloc, List.length_append, List.length_take, List.length_replicate]
  omega

lemma store_isSome : (∃ b', b.store i l = some b') ↔ i + l.length ≤ b.length := by
  unfold store
  split_ifs with h <;> simp [h]

lemma length_store (h : b.store i l = some b') : b'.length = b.length := by
  have hle := store_isSome.1 ⟨b', h⟩
  unfold store at h
  rw [if_pos hle] at h
  cases h
  simp only [List.length_append, List.length_take, List.length_map, List.length_drop]
  omega

@[simp] lemma starts_nil : b.Starts [] := List.nil_prefix

lemma Starts.of_isPrefix (h : b.Starts t) (hl : l <+: t) : b.Starts l := (hl.map some).trans h

lemma starts_cons {x : α} : b.Starts (x :: l) ↔ ∃ r, b = some x :: r ∧ Starts r l := by
  cases b with
  | nil => simp [Starts]
  | cons o r =>
    simp only [Starts, List.map_cons, List.cons_prefix_cons, List.cons_eq_cons]
    constructor
    · rintro ⟨rfl, h⟩
      exact ⟨r, ⟨rfl, rfl⟩, h⟩
    · rintro ⟨_, ⟨rfl, rfl⟩, h⟩
      exact ⟨rfl, h⟩

/-- A block keeps its contents when it grows, and when it is cut down to a size that holds them. -/
lemma Starts.realloc (h : b.Starts l) (hn : l.length ≤ n) : (b.realloc n).Starts l := by
  obtain ⟨r, rfl⟩ := h
  unfold Block.realloc
  rw [List.take_append, List.take_of_length_le (by simpa using hn), List.append_assoc]
  exact ⟨_, rfl⟩

/-- A store at the end of the contents makes them longer. -/
lemma Starts.store (h : b.Starts l) (hs : b.store l.length t = some b') : b'.Starts (l ++ t) := by
  have hle := store_isSome.1 ⟨b', hs⟩
  unfold Block.store at hs
  rw [if_pos hle] at hs
  cases hs
  obtain ⟨r, rfl⟩ := h
  rw [List.take_append_of_le_length (by simp), List.take_of_length_le (by simp)]
  exact ⟨_, by rw [List.map_append]⟩

/-! ### Reads -/

/-- An index below a bound has a next one. -/
lemma toNat_succ_of_lt {i n : UInt32} (h : i < n) : (i + 1).toNat = i.toNat + 1 := by
  have hlt := UInt32.lt_iff_toNat_lt.1 h
  have hn := n.toNat_lt
  rw [UInt32.toNat_add, UInt32.toNat_one]
  omega

section Reads

variable {c : Block α} {u : List α} {x : α}

lemma Starts.read (h : b.Starts l) (hx : l[i]? = some x) : b.read i = some x := by
  obtain ⟨r, rfl⟩ := h
  have hi := (List.getElem?_eq_some_iff.1 hx).1
  rw [Block.read, List.getElem?_append_left (by simpa using hi), List.getElem?_map, hx]
  rfl

lemma Starts.first (h : b.Starts l) (hn : n ≤ l.length) : first n b = some (l.take n) := by
  induction n generalizing b l with
  | zero => simp [Block.first]
  | succ n ih =>
    cases l with
    | nil => simp at hn
    | cons x l =>
      obtain ⟨r, rfl⟩ := h
      rw [List.map_cons, List.cons_append, Block.first, ih ⟨r, rfl⟩ (Nat.le_of_succ_le_succ hn), Option.map_some,
        List.take_succ_cons]

/-- A store to one cell. -/
lemma store_singleton (hi : i < b.length) (x : α) : b.store i [x] = some (b.set i (some x)) := by
  unfold store
  rw [if_pos (by simpa using hi), List.set_eq_take_append_cons_drop, if_pos hi, List.append_assoc]
  rfl

lemma read_set {j : ℕ} (hi : i < b.length) : read (b.set i (some x)) j = if i = j then some x else b.read j := by
  unfold read
  rw [List.getElem?_set]
  split_ifs <;> rfl

/-- What stands further back in a block. -/
lemma Starts.drop (h : b.Starts l) : Starts (b.drop i) (l.drop i) := by
  obtain ⟨r, rfl⟩ := h
  rw [List.drop_append, Starts, List.map_drop]
  exact List.prefix_append _ _

/-- The first cells of two blocks, where they have values. -/
lemma memcmpEq_eq [DecidableEq α] (hb : b.Starts l) (hc : c.Starts u) (hn : n ≤ l.length) (hn' : n ≤ u.length) :
    b.memcmpEq c n = some (decide (l.take n = u.take n)) := by
  rw [memcmpEq, hb.first hn, hc.first hn', Option.bind_some, Option.map_some]

/-- **A loop over the first cells**, `for (uint32_t i = 0; i < n; i++)`, is the fold over their values. -/
theorem Starts.loop {S : Type*} {f : UInt32 → S → Option S} {g : S → α → S} {n : UInt32} (h : b.Starts l)
    (hn : n.toNat ≤ l.length) (hstep : ∀ i s x, i < n → b.read i.toNat = some x → f i s = f (i + 1) (g s x))
    (hend : ∀ i s, ¬ i < n → f i s = some s) (s : S) : f 0 s = some ((l.take n.toNat).foldl g s) := by
  -- the induction is on the number of rounds that are left
  have hrest : ∀ k (i : UInt32) s, i.toNat + k = n.toNat → f i s = some (((l.take n.toNat).drop i.toNat).foldl g s) := by
    intro k
    induction k with
    | zero =>
      intro i s hi
      rw [hend i s (by rw [UInt32.lt_iff_toNat_lt]; omega), List.drop_eq_nil_of_le (by rw [List.length_take]; omega)]
      rfl
    | succ k ih =>
      intro i s hi
      have hin : i < n := by
        rw [UInt32.lt_iff_toNat_lt]
        omega
      have hlt : i.toNat < (l.take n.toNat).length := by
        rw [List.length_take]
        omega
      have hx : l[i.toNat]? = some (l.take n.toNat)[i.toNat] := by
        rw [List.getElem_take, List.getElem?_eq_getElem]
      have hnext := toNat_succ_of_lt hin
      rw [hstep i s _ hin (h.read hx), ih (i + 1) _ (by omega), hnext, List.drop_eq_getElem_cons hlt, List.foldl_cons]
  exact hrest n.toNat 0 s (Nat.zero_add _)

end Reads

end Block

end Wrensong.Lib
