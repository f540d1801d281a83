import Mathlib.Data.List.Infix
import Mathlib.Tactic

/-!
# Self-synchronizing codes

A code gives each letter a word. It is self-synchronizing if a letter at the front of a word never stands further back in
one, and no word begins another. Then what occurs in a text of words as a text of words begins and ends between the words
(`SelfSync.split`).
-/

namespace Wrensong.Lib

variable {α β : Type*}

/-- The words of the letters in `P` begin with a leading letter, have no other, and do not begin each other. -/
structure SelfSync (enc : α → List β) (P : α → Prop) (lead : β → Prop) : Prop where
  starts : ∀ {a}, P a → ∃ b t, enc a = b :: t ∧ lead b ∧ ∀ c ∈ t, ¬ lead c
  prefix_free : ∀ {a b}, P a → P b → enc a <+: enc b → a = b

namespace SelfSync

variable {enc : α → List β} {P : α → Prop} {lead : β → Prop} {cs ds : List α} {x y : List β} {b : β}

lemma flatMap_ne_nil (h : SelfSync enc P lead) (hd : ∀ d ∈ ds, P d) (hne : ds ≠ []) :
    ∃ b t, ds.flatMap enc = b :: t ∧ lead b := by
  obtain ⟨d, ds, rfl⟩ := List.exists_cons_of_ne_nil hne
  obtain ⟨b, t, he, hb, -⟩ := h.starts (hd d List.mem_cons_self)
  exact ⟨b, t ++ ds.flatMap enc, by rw [List.flatMap_cons, he]; rfl, hb⟩

/-- A text that begins another one begins it with all its letters. -/
lemma isPrefix (h : SelfSync enc P lead) (hc : ∀ c ∈ cs, P c) (hd : ∀ d ∈ ds, P d)
    (hp : ds.flatMap enc <+: cs.flatMap enc) : ds <+: cs := by
  induction ds generalizing cs with
  | nil => exact List.nil_prefix
  | cons d ds ih =>
    cases cs with
    | nil =>
      obtain ⟨b, t, he, -⟩ := h.flatMap_ne_nil hd (List.cons_ne_nil d ds)
      rw [he] at hp
      cases List.prefix_nil.1 hp
    | cons c cs =>
      have hpc := hc c List.mem_cons_self
      have hpd := hd d List.mem_cons_self
      obtain ⟨z, hz⟩ := hp
      rw [List.flatMap_cons, List.flatMap_cons, List.append_assoc] at hz
      -- one of the two first words begins the other
      obtain rfl : d = c := by
        rcases List.append_eq_append_iff.1 hz with ⟨w, hw, -⟩ | ⟨w, hw, -⟩
        · exact h.prefix_free hpd hpc ⟨w, hw.symm⟩
        · exact (h.prefix_free hpc hpd ⟨w, hw.symm⟩).symm
      have hrest := List.append_cancel_left hz
      exact List.cons_prefix_cons.2 ⟨rfl, ih (fun c hm => hc c (List.mem_cons_of_mem _ hm))
        (fun d hm => hd d (List.mem_cons_of_mem _ hm)) ⟨z, hrest⟩⟩

/-- A leading letter stands between words. -/
lemma boundary (h : SelfSync enc P lead) (hc : ∀ c ∈ cs, P c) (he : cs.flatMap enc = x ++ b :: y) (hb : lead b) :
    ∃ cs1 cs2, cs = cs1 ++ cs2 ∧ cs1.flatMap enc = x ∧ cs2.flatMap enc = b :: y := by
  induction cs generalizing x with
  | nil => simp at he
  | cons c cs ih =>
    obtain ⟨b', t, hw, -, ht⟩ := h.starts (hc c List.mem_cons_self)
    have hrest : ∀ c ∈ cs, P c := fun c hm => hc c (List.mem_cons_of_mem _ hm)
    cases x with
    | nil => exact ⟨[], c :: cs, rfl, rfl, he⟩
    | cons b'' x =>
      rw [List.flatMap_cons, hw, List.cons_append, List.cons_append, List.cons_eq_cons] at he
      obtain ⟨rfl, he⟩ := he
      rcases List.append_eq_append_iff.1 he with ⟨w, rfl, hs⟩ | ⟨w, rfl, hs⟩
      · obtain ⟨cs1, cs2, rfl, h1, h2⟩ := ih hrest hs
        exact ⟨c :: cs1, cs2, rfl, by rw [List.flatMap_cons, hw, h1]; rfl, h2⟩
      · cases w with
        | nil =>
          obtain ⟨cs1, cs2, rfl, h1, h2⟩ := ih hrest (x := []) hs.symm
          exact ⟨c :: cs1, cs2, rfl, by rw [List.flatMap_cons, hw, h1]; simp, h2⟩
        | cons e w =>
          rw [List.cons_append, List.cons_eq_cons] at hs
          obtain ⟨rfl, -⟩ := hs
          exact absurd hb (ht b (by simp))

/-- **Synchronization.** -/
theorem split (h : SelfSync enc P lead) (hc : ∀ c ∈ cs, P c) (hd : ∀ d ∈ ds, P d) (hne : ds ≠ [])
    (he : cs.flatMap enc = x ++ (ds.flatMap enc ++ y)) :
    ∃ cs1 cs2, cs = cs1 ++ (ds ++ cs2) ∧ cs1.flatMap enc = x ∧ cs2.flatMap enc = y := by
  obtain ⟨b, t, hb, hlead⟩ := h.flatMap_ne_nil hd hne
  have he' := he
  rw [hb] at he'
  obtain ⟨cs1, cs2, rfl, h1, h2⟩ := h.boundary hc he' hlead
  have hcs2 : cs2.flatMap enc = ds.flatMap enc ++ y := by
    rw [h2, hb]
    rfl
  obtain ⟨cs3, rfl⟩ := h.isPrefix (fun c hm => hc c (List.mem_append_right _ hm)) hd ⟨y, hcs2.symm⟩
  rw [List.flatMap_append] at hcs2
  exact ⟨cs1, cs3, rfl, h1, List.append_cancel_left hcs2⟩

end SelfSync

end Wrensong.Lib
