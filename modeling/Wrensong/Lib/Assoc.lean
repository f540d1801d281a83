import Mathlib.Data.List.Basic
import Mathlib.Tactic

/-!
# Maps as lists of pairs

A map whose keys stand in the order in which they came. `upsert` changes the value of a key in place, or appends the key.
`collect` makes the map of a list of writes, and `collect₂` that of a list of writes with two keys, a map of maps. What a
map of writes holds is said by the writes: its keys are theirs without repetition (`List.eraseDups`), and the value of a key
is that of the last write.
-/

namespace Wrensong.Lib

variable {α β γ : Type*} [DecidableEq α]

/-- Changes the value of a key. -/
def upsert (a : α) (f : Option β → β) : List (α × β) → List (α × β)
  | [] => [(a, f none)]
  | p :: m => if p.1 = a then (a, f (some p.2)) :: m else p :: upsert a f m

/-- The map of a list of writes. -/
def collect (ws : List (α × β)) : List (α × β) := ws.foldl (fun m w => upsert w.1 (fun _ => w.2) m) []

/-- The value of the last write for a key. -/
def lastWrite (a : α) (ws : List (α × β)) : Option β := (ws.filter fun w => w.1 = a).getLast?.map Prod.snd

/-- The writes with the first key `a`. -/
def writesTo (a : α) (ws : List (α × β × γ)) : List (β × γ) := (ws.filter fun w => w.1 = a).map Prod.snd

/-- One write with two keys. -/
def put [DecidableEq β] (m : List (α × List (β × γ))) (w : α × β × γ) : List (α × List (β × γ)) :=
  upsert w.1 (fun o => upsert w.2.1 (fun _ => w.2.2) (o.getD [])) m

/-- The map of a list of writes with two keys. -/
def collect₂ [DecidableEq β] (ws : List (α × β × γ)) : List (α × List (β × γ)) := ws.foldl put []

/-! ### Repetitions -/

lemma eraseDups_concat (l : List α) (a : α) :
    (l ++ [a]).eraseDups = if a ∈ l then l.eraseDups else l.eraseDups ++ [a] := by
  rw [List.eraseDups_append]
  split_ifs with h <;> simp [List.removeAll, h, List.eraseDups_cons]

lemma nodup_eraseDups (l : List α) : l.eraseDups.Nodup := by
  induction l using List.reverseRecOn with
  | nil => exact List.nodup_nil
  | append_singleton l a ih =>
    rw [eraseDups_concat]
    split_ifs with h
    · exact ih
    · refine ih.append (List.nodup_singleton a) ?_
      simpa using h

lemma eraseDups_of_nodup {l : List α} (h : l.Nodup) : l.eraseDups = l := by
  induction l using List.reverseRecOn with
  | nil => rfl
  | append_singleton l a ih =>
    obtain ⟨hl, -, hdisjoint⟩ := List.nodup_append.1 h
    rw [eraseDups_concat, if_neg fun ha => hdisjoint a ha a (List.mem_singleton_self a) rfl, ih hl]

lemma length_eraseDups_concat (l : List α) (a : α) :
    (l ++ [a]).eraseDups.length = if a ∈ l then l.eraseDups.length else l.eraseDups.length + 1 := by
  rw [eraseDups_concat]
  split_ifs with h
  · rfl
  · rw [List.length_append, List.length_singleton]

lemma length_eraseDups_concat_le (l : List α) (a : α) : l.eraseDups.length ≤ (l ++ [a]).eraseDups.length := by
  rw [length_eraseDups_concat]
  split_ifs
  · exact le_rfl
  · exact Nat.le_succ _

/-! ### One key -/

section Upsert

variable {a a' : α} {b : β} {f : Option β → β} {m : List (α × β)}

lemma keys_upsert : (upsert a f m).map Prod.fst = if a ∈ m.map Prod.fst then m.map Prod.fst else m.map Prod.fst ++ [a] := by
  induction m with
  | nil => simp [upsert]
  | cons p m ih =>
    by_cases hp : p.1 = a
    · simp [upsert, hp]
    · rw [upsert, if_neg hp, List.map_cons, ih, List.map_cons]
      by_cases hm : a ∈ m.map Prod.fst
      · rw [if_pos hm, if_pos (List.mem_cons_of_mem _ hm)]
      · rw [if_neg hm, if_neg (by simpa [Ne.symm hp] using hm), List.cons_append]

lemma lookup_cons_pair : ((a, b) :: m).lookup a' = if a' = a then some b else m.lookup a' := by
  by_cases h : a' = a
  · simp [h]
  · rw [List.lookup_cons, beq_false_of_ne h, if_neg h]

/-- **A change is seen at its key only.** -/
lemma lookup_upsert : (upsert a f m).lookup a' = if a' = a then some (f (m.lookup a)) else m.lookup a' := by
  induction m with
  | nil => rw [upsert, lookup_cons_pair, List.lookup_nil, List.lookup_nil]
  | cons p m ih =>
    obtain ⟨c, d⟩ := p
    by_cases hc : c = a
    · subst hc
      rw [upsert, if_pos rfl, lookup_cons_pair, lookup_cons_pair, lookup_cons_pair, if_pos rfl]
      split_ifs <;> rfl
    · rw [upsert, if_neg hc, lookup_cons_pair, ih, lookup_cons_pair, lookup_cons_pair, if_neg (Ne.symm hc)]
      by_cases h : a' = a
      · rw [if_pos h, if_pos h, if_neg (by rw [h]; exact Ne.symm hc)]
      · rw [if_neg h, if_neg h]

/-- The place of a key that is there first at `pre.length`. -/
lemma upsert_append_cons {pre post : List (α × β)} (hpre : ∀ p ∈ pre, p.1 ≠ a) :
    upsert a f (pre ++ (a, b) :: post) = pre ++ (a, f (some b)) :: post := by
  induction pre with
  | nil => simp [upsert]
  | cons p pre ih =>
    rw [List.cons_append, upsert, if_neg (hpre p (by simp)), ih fun q hq => hpre q (by simp [hq]), List.cons_append]

/-- A key that is not there. -/
lemma upsert_of_new (hm : ∀ p ∈ m, p.1 ≠ a) : upsert a f m = m ++ [(a, f none)] := by
  induction m with
  | nil => rfl
  | cons p m ih =>
    rw [upsert, if_neg (hm p (by simp)), ih fun q hq => hm q (by simp [hq]), List.cons_append]

/-- Where the keys are distinct, each pair is found. -/
lemma lookup_of_mem (hm : (m.map Prod.fst).Nodup) (h : (a, b) ∈ m) : m.lookup a = some b := by
  obtain ⟨pre, post, rfl⟩ := List.append_of_mem h
  refine List.lookup_eq_some_iff.2 ⟨pre, post, rfl, fun p hp => ?_⟩
  rw [List.map_append, List.map_cons] at hm
  have hne : p.1 ≠ a := (List.nodup_append.1 hm).2.2 p.1 (List.mem_map_of_mem hp) a (by simp)
  simpa using hne.symm

end Upsert

section Collect

variable {a : α} (ws : List (α × β))

lemma collect_concat (w : α × β) : collect (ws ++ [w]) = upsert w.1 (fun _ => w.2) (collect ws) := by
  simp [collect, List.foldl_append]

/-- **The keys stand in the order of their first writes.** -/
theorem keys_collect : (collect ws).map Prod.fst = (ws.map Prod.fst).eraseDups := by
  induction ws using List.reverseRecOn with
  | nil => rfl
  | append_singleton ws w ih =>
    rw [collect_concat, keys_upsert, ih, List.map_append, List.map_singleton, eraseDups_concat]
    simp only [List.mem_eraseDups]

/-- **The value of a key is that of its last write.** -/
theorem lookup_collect : (collect ws).lookup a = lastWrite a ws := by
  induction ws using List.reverseRecOn with
  | nil => rfl
  | append_singleton ws w ih =>
    rw [collect_concat, lookup_upsert, ih]
    by_cases h : a = w.1
    · simp [lastWrite, h]
    · simp [lastWrite, h, Ne.symm h]

end Collect

/-! ### Two keys -/

lemma writesTo_concat {a : α} (ws : List (α × β × γ)) (w : α × β × γ) :
    writesTo a (ws ++ [w]) = if a = w.1 then writesTo a ws ++ [w.2] else writesTo a ws := by
  by_cases h : a = w.1
  · simp [writesTo, h]
  · simp [writesTo, h, Ne.symm h]

section Collect₂

variable [DecidableEq β] {a : α} {b : β} (ws : List (α × β × γ)) (w : α × β × γ)

lemma collect₂_concat : collect₂ (ws ++ [w]) = put (collect₂ ws) w := by
  simp [collect₂, List.foldl_append]

/-- The first keys. -/
theorem keys_collect₂ : (collect₂ ws).map Prod.fst = (ws.map Prod.fst).eraseDups := by
  induction ws using List.reverseRecOn with
  | nil => rfl
  | append_singleton ws w ih =>
    rw [collect₂_concat, put, keys_upsert, ih, List.map_append, List.map_singleton, eraseDups_concat]
    simp only [List.mem_eraseDups]

/-- **A map of maps holds for each first key the map of the writes to it.** -/
theorem getD_lookup_collect₂ : ((collect₂ ws).lookup a).getD [] = collect (writesTo a ws) := by
  induction ws using List.reverseRecOn with
  | nil => rfl
  | append_singleton ws w ih =>
    rw [collect₂_concat, put, lookup_upsert, writesTo_concat]
    by_cases h : a = w.1
    · subst h
      rw [if_pos rfl, if_pos rfl, Option.getD_some, ih, collect_concat]
    · rw [if_neg h, if_neg h, ih]

/-- What stands under a first key. -/
lemma mem_collect₂ {m : List (β × γ)} (h : (a, m) ∈ collect₂ ws) : m = collect (writesTo a ws) := by
  have hnodup : ((collect₂ ws).map Prod.fst).Nodup := by
    rw [keys_collect₂]
    exact nodup_eraseDups _
  have hget := getD_lookup_collect₂ (a := a) ws
  rwa [lookup_of_mem hnodup h] at hget

/-- The value of a pair of keys is that of its last write. -/
theorem lookup_collect₂ : ((collect₂ ws).lookup a).bind (List.lookup b) = lastWrite b (writesTo a ws) := by
  rw [← lookup_collect, ← getD_lookup_collect₂]
  cases (collect₂ ws).lookup a <;> rfl

end Collect₂

end Wrensong.Lib
