import Mathlib.Data.Finset.Card
import Wrensong.Lib.Heap

/-!
# Linked lists and queues in a heap

A node has a value and a pointer to the next one. `Chain h l p` says that from the pointer `p` on the heap holds the nodes
at the addresses `l`; a chain has no address twice, and a node can be taken out (`Chain.unlink`). `Fifo` is a chain with a
pointer to its last node. `Fifo.push` links a new node in behind the last one and `Fifo.pop` takes the first one out.
-/

namespace Wrensong.Lib

/-- A node of a linked list. -/
structure Node (α : Type*) where
  value : α
  next : Option ℕ
  deriving DecidableEq, Repr

variable {α : Type*} {h h' : Heap (Node α)} {p : Option ℕ} {l l' : List ℕ} {a b : ℕ} {n : Node α} {x : α}

/-- The pointer leads through the nodes at the addresses. -/
def Chain (h : Heap (Node α)) : List ℕ → Option ℕ → Prop
  | [], p => p = none
  | a :: l, p => p = some a ∧ ∃ n, h.get? a = some n ∧ Chain h l n.next

/-- `a->next = p`, where there is a node. -/
def Heap.setNext (h : Heap (Node α)) (a : ℕ) (p : Option ℕ) : Heap (Node α) :=
  match h.get? a with
  | some n => h.put a { n with next := p }
  | none => h

lemma Heap.setNext_of_get? (hn : h.get? a = some n) : h.setNext a p = h.put a { n with next := p } := by
  rw [Heap.setNext, hn]

@[simp] lemma Heap.next_setNext : (h.setNext a p).next = h.next := by
  unfold Heap.setNext
  split <;> simp

/-- The value of a node is not changed. -/
lemma Heap.value_setNext : ((h.setNext a p).get? b).map Node.value = (h.get? b).map Node.value := by
  rcases hn : h.get? a with _ | n
  · simp [Heap.setNext, hn]
  · rw [Heap.setNext_of_get? hn, Heap.get?_put]
    split_ifs with e
    · subst e
      simp [hn]
    · rfl

namespace Chain

/-- A chain is kept by what leaves the pointers in its nodes alone. -/
lemma congr_next (hc : Chain h l p) (hsame : ∀ a ∈ l, (h'.get? a).map Node.next = (h.get? a).map Node.next) :
    Chain h' l p := by
  induction l generalizing p with
  | nil => exact hc
  | cons a l ih =>
    obtain ⟨rfl, n, hn, hrest⟩ := hc
    have ha := hsame a List.mem_cons_self
    rw [hn] at ha
    obtain ⟨n', hn', hnext⟩ := Option.map_eq_some_iff.1 ha
    exact ⟨rfl, n', hn', hnext ▸ ih hrest fun b hb => hsame b (List.mem_cons_of_mem _ hb)⟩

/-- A chain is kept by what leaves its nodes alone. -/
lemma frame (hc : Chain h l p) (hsame : ∀ a ∈ l, h'.get? a = h.get? a) : Chain h' l p :=
  hc.congr_next fun a ha => by rw [hsame a ha]

lemma get? (hc : Chain h l p) (ha : a ∈ l) : ∃ n, h.get? a = some n := by
  induction l generalizing p with
  | nil => cases ha
  | cons b l ih =>
    obtain ⟨-, n, hn, hrest⟩ := hc
    rcases List.mem_cons.1 ha with rfl | ha
    · exact ⟨n, hn⟩
    · exact ih hrest ha

lemma lt_next (hc : Chain h l p) (ha : a ∈ l) : a < h.next := by
  obtain ⟨n, hn⟩ := hc.get? ha
  exact Heap.lt_next hn

/-- The pointer determines the addresses. -/
lemma unique (hc : Chain h l p) (hc' : Chain h l' p) : l = l' := by
  induction l generalizing p l' with
  | nil =>
    obtain rfl : p = none := hc
    cases l' with
    | nil => rfl
    | cons b l' => cases hc'.1
  | cons a l ih =>
    obtain ⟨rfl, n, hn, hrest⟩ := hc
    cases l' with
    | nil => cases hc'
    | cons b l' =>
      obtain ⟨e, n', hn', hrest'⟩ := hc'
      cases e
      rw [hn] at hn'
      cases hn'
      rw [ih hrest hrest']

/-- A chain begins at its pointer. -/
lemma head (hc : Chain h l p) : p = l.head? := by
  cases l with
  | nil => exact hc
  | cons a l => exact hc.1

/-- A node points to the one behind it. -/
lemma next_eq (hc : Chain h (l ++ a :: l') p) : ∃ n, h.get? a = some n ∧ n.next = l'.head? := by
  induction l generalizing p with
  | nil =>
    obtain ⟨-, n, hn, hrest⟩ := hc
    exact ⟨n, hn, hrest.head⟩
  | cons b l ih =>
    obtain ⟨-, n, -, hrest⟩ := hc
    exact ih hrest

lemma of_append (hc : Chain h (l ++ l') p) : ∃ p', Chain h l' p' := by
  induction l generalizing p with
  | nil => exact ⟨p, hc⟩
  | cons a l ih =>
    obtain ⟨-, n, -, hrest⟩ := hc
    exact ih hrest

/-- **No address twice**: it would lead to two chains of different lengths. -/
theorem nodup (hc : Chain h l p) : l.Nodup := by
  induction l generalizing p with
  | nil => exact List.nodup_nil
  | cons a l ih =>
    have hrest := hc
    obtain ⟨-, n, -, hrest⟩ := hrest
    refine List.nodup_cons.2 ⟨fun ha => ?_, ih hrest⟩
    obtain ⟨l1, l2, rfl⟩ := List.append_of_mem ha
    obtain ⟨p', hp'⟩ := hrest.of_append
    obtain rfl := hc.1
    obtain rfl := hp'.1
    have hlen := congrArg List.length (hc.unique hp')
    simp only [List.length_cons, List.length_append] at hlen
    omega

lemma length_le (hc : Chain h l p) : l.length ≤ h.next := by
  have hsub : l.toFinset ⊆ Finset.range h.next := fun a ha =>
    Finset.mem_range.2 (hc.lt_next (List.mem_toFinset.1 ha))
  have hcard := Finset.card_le_card hsub
  rwa [List.toFinset_card_of_nodup hc.nodup, Finset.card_range] at hcard

/-- A node is linked in behind another one. -/
lemma insert (hc : Chain h (l ++ a :: l') p) (hb : h.get? b = some n) (hnext : n.next = l'.head?) (hne : b ∉ l ++ a :: l') :
    Chain (h.setNext a (some b)) (l ++ a :: b :: l') p := by
  have hnodup := hc.nodup
  induction l generalizing p with
  | nil =>
    obtain ⟨rfl, na, hna, hrest⟩ := hc
    have hab : a ≠ b := fun e => hne (by simp [e])
    refine ⟨rfl, { na with next := some b }, ?_, rfl, n, ?_, ?_⟩
    · rw [Heap.setNext_of_get? hna, Heap.get?_put_self hna]
    · rw [Heap.setNext_of_get? hna, Heap.get?_put_ne hab, hb]
    · rw [hnext, ← hrest.head]
      refine hrest.frame fun c hc => ?_
      rw [Heap.setNext_of_get? hna, Heap.get?_put_ne]
      rintro rfl
      exact (List.nodup_cons.1 hnodup).1 hc
  | cons c l ih =>
    obtain ⟨rfl, nc, hnc, hrest⟩ := hc
    rw [List.cons_append, List.nodup_cons] at hnodup
    have hca : c ≠ a := fun e => hnodup.1 (by simp [e])
    obtain ⟨na, hna⟩ := hrest.get? (show a ∈ l ++ a :: l' by simp)
    refine ⟨rfl, nc, ?_, ih hrest (fun hb' => hne (List.mem_cons_of_mem _ hb')) hnodup.2⟩
    rw [Heap.setNext_of_get? hna, Heap.get?_put_ne hca.symm, hnc]

/-- The last node gets a next one. -/
lemma link (hc : Chain h (l ++ [a]) p) (hb : h.get? b = some ⟨x, none⟩) (hne : b ∉ l ++ [a]) :
    Chain (h.setNext a (some b)) (l ++ [a, b]) p := hc.insert hb rfl hne

/-- A node is taken out behind another one. -/
lemma unlink (hc : Chain h (l ++ a :: b :: l') p) (hb : h.get? b = some n) :
    Chain (h.setNext a n.next) (l ++ a :: l') p := by
  have hnodup := hc.nodup
  induction l generalizing p with
  | nil =>
    obtain ⟨rfl, na, hna, rfl', nb, hnb, hrest⟩ := hc
    cases hb.symm.trans hnb
    rw [List.nil_append, List.nodup_cons, List.nodup_cons] at hnodup
    refine ⟨rfl, { na with next := n.next }, ?_, hrest.frame fun c hc => ?_⟩
    · rw [Heap.setNext_of_get? hna, Heap.get?_put_self hna]
    · rw [Heap.setNext_of_get? hna, Heap.get?_put_ne]
      rintro rfl
      exact hnodup.1 (List.mem_cons_of_mem _ hc)
  | cons c l ih =>
    obtain ⟨rfl, nc, hnc, hrest⟩ := hc
    rw [List.cons_append, List.nodup_cons] at hnodup
    have hca : c ≠ a := fun e => hnodup.1 (by simp [e])
    obtain ⟨na, hna⟩ := hrest.get? (show a ∈ l ++ a :: b :: l' by simp)
    exact ⟨rfl, nc, by rw [Heap.setNext_of_get? hna, Heap.get?_put_ne hca.symm, hnc], ih hrest hnodup.2⟩

end Chain

/-! ### Queues -/

/-- A queue from its first to its last node. -/
structure Fifo (h : Heap (Node α)) (first last : Option ℕ) (l : List ℕ) : Prop where
  chain : Chain h l first
  last_eq : last = l.getLast?

namespace Fifo

variable {first last : Option ℕ}

lemma first_none (hq : Fifo h first last l) : first = none ↔ l = [] := by
  have hc := hq.chain
  cases l with
  | nil => exact iff_of_true hc rfl
  | cons a l => exact iff_of_false (by rw [hc.1]; simp) (by simp)

/-- **A new node behind the last one.** -/
theorem push (hq : Fifo h first last l) (x : α) :
    Fifo (match last with
      | some e => (h.alloc ⟨x, none⟩).setNext e (some h.next)
      | none => h.alloc ⟨x, none⟩)
      (if first = none then some h.next else first) (some h.next) (l ++ [h.next]) := by
  have hnew : (h.alloc ⟨x, none⟩).get? h.next = some ⟨x, none⟩ := Heap.get?_alloc_next
  have hfresh : h.next ∉ l := fun hm => (hq.chain.lt_next hm).false
  have hold : Chain (h.alloc ⟨x, none⟩) l first := hq.chain.frame fun a ha => by
    obtain ⟨n, hn⟩ := hq.chain.get? ha
    rw [hn, Heap.get?_alloc_of_get? hn]
  refine ⟨?_, by simp⟩
  rcases List.eq_nil_or_concat' l with rfl | ⟨l, a, rfl⟩
  · obtain rfl : first = none := hq.chain
    obtain rfl : last = none := hq.last_eq
    exact ⟨rfl, _, hnew, rfl⟩
  · obtain rfl : last = some a := by rw [hq.last_eq, List.getLast?_concat]
    rw [if_neg (by rw [hq.first_none]; simp), List.append_assoc]
    exact hold.link hnew hfresh

/-- **The first node is taken out.** -/
theorem pop (hq : Fifo h (some a) last l) : ∃ n l', h.get? a = some n ∧ l = a :: l' ∧
    Fifo h n.next (if some a = last then none else last) l' := by
  cases l with
  | nil => cases hq.chain
  | cons b l =>
    obtain ⟨e, n, hn, hrest⟩ := hq.chain
    cases e
    refine ⟨n, l, hn, rfl, hrest, ?_⟩
    have hnodup := hq.chain.nodup
    rw [hq.last_eq]
    rcases List.eq_nil_or_concat' l with rfl | ⟨l, c, rfl⟩
    · exact if_pos rfl
    · have hne : a ≠ c := fun e => (List.nodup_cons.1 hnodup).1 (by simp [e])
      rw [← List.cons_append, List.getLast?_concat, List.getLast?_concat, if_neg (by simpa using hne)]

end Fifo

end Wrensong.Lib
