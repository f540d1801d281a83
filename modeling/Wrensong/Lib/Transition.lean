import Mathlib.Data.Option.Basic
import Mathlib.Tactic

/-!
# Runs of a partial step function

A system is a function `step : S → A → Option S`; `none` says that the action is not possible. `run` takes a list of
actions. The rules say how a run splits, and how an invariant of one step becomes one of all runs: of every run, of the
runs whose steps all meet a condition (`Guarded`), and for a relation between the actions taken and the state reached.
`length_le_of_run` bounds runs by a measure.
`run_rel` and `run_sim` carry runs over to a second system.
-/

namespace Wrensong.Lib.Transition

variable {S A : Type*} (step : S → A → Option S)

/-- The state after a list of actions. -/
def run : S → List A → Option S
  | s, [] => some s
  | s, a :: as => (step s a).bind fun s' => run s' as

/-- Every action of a run is taken in a state where `ok` holds. -/
def Guarded (ok : S → A → Prop) : S → List A → Prop
  | _, [] => True
  | s, a :: as => ok s a ∧
    match step s a with
    | some s' => Guarded ok s' as
    | none => True

instance Guarded.decidable (ok : S → A → Prop) [∀ s a, Decidable (ok s a)] :
    ∀ (s : S) (as : List A), Decidable (Guarded step ok s as)
  | _, [] => inferInstanceAs (Decidable True)
  | s, a :: as =>
    have : Decidable (match step s a with
        | some s' => Guarded step ok s' as
        | none => True) :=
      match step s a with
      | some s' => Guarded.decidable ok s' as
      | none => inferInstanceAs (Decidable True)
    inferInstanceAs (Decidable (_ ∧ _))

section Rules

variable {step} {s s' s'' : S} {a : A} {as bs : List A}

@[simp] lemma run_nil : run step s [] = some s := rfl

lemma run_cons (h : step s a = some s') : run step s (a :: as) = run step s' as := by simp [run, h]

lemma run_cons_iff : run step s (a :: as) = some s'' ↔ ∃ s', step s a = some s' ∧ run step s' as = some s'' := by
  simp [run, Option.bind_eq_some_iff]

/-- A run splits after any of its actions. -/
lemma run_append : run step s (as ++ bs) = (run step s as).bind fun s' => run step s' bs := by
  induction as generalizing s with
  | nil => rfl
  | cons a as ih =>
    simp only [List.cons_append, run]
    cases step s a with
    | none => rfl
    | some s' => exact ih

lemma run_append_iff : run step s (as ++ bs) = some s'' ↔ ∃ s', run step s as = some s' ∧ run step s' bs = some s'' := by
  rw [run_append, Option.bind_eq_some_iff]

lemma run_concat_iff : run step s (as ++ [a]) = some s'' ↔ ∃ s', run step s as = some s' ∧ step s' a = some s'' := by
  rw [run_append_iff]
  simp [run]

/-- **Invariants of guarded runs.** What every step keeps in the states where it is allowed holds after a run of allowed
steps. -/
theorem Guarded.invariant {ok : S → A → Prop} {I : S → Prop}
    (hstep : ∀ {s a s'}, I s → ok s a → step s a = some s' → I s') (hg : Guarded step ok s as) (hi : I s)
    (hr : run step s as = some s') : I s' := by
  induction as generalizing s with
  | nil =>
    cases hr
    exact hi
  | cons a as ih =>
    obtain ⟨s1, h1, hr⟩ := run_cons_iff.1 hr
    obtain ⟨hok, hg⟩ := hg
    rw [h1] at hg
    exact ih hg (hstep hi hok h1) hr

/-- **Progress.** Where every allowed step is possible and keeps an invariant, a run of allowed steps is possible. -/
theorem Guarded.progress {ok : S → A → Prop} {I : S → Prop}
    (hstep : ∀ {s a}, I s → ok s a → ∃ s', step s a = some s' ∧ I s') (hg : Guarded step ok s as) (hi : I s) :
    ∃ s', run step s as = some s' ∧ I s' := by
  induction as generalizing s with
  | nil => exact ⟨s, rfl, hi⟩
  | cons a as ih =>
    obtain ⟨hok, hg⟩ := hg
    obtain ⟨s1, h1, hi1⟩ := hstep hi hok
    rw [h1] at hg
    rw [run_cons h1]
    exact ih hg hi1

/-- A beginning of a guarded run is one. -/
lemma Guarded.of_isPrefix {ok : S → A → Prop} (hg : Guarded step ok s as) (hbs : bs <+: as) : Guarded step ok s bs := by
  induction bs generalizing s as with
  | nil => trivial
  | cons b bs ih =>
    obtain ⟨as, rfl, hbs'⟩ := List.cons_prefix_iff.1 hbs
    obtain ⟨hok, hg⟩ := hg
    refine ⟨hok, ?_⟩
    cases hb : step s b with
    | none => trivial
    | some s' =>
      rw [hb] at hg
      exact ih hg hbs'

/-- A run is guarded by what holds of every step. -/
lemma guarded_of_forall {ok : S → A → Prop} (h : ∀ s a, ok s a) (s : S) (as : List A) : Guarded step ok s as := by
  induction as generalizing s with
  | nil => trivial
  | cons a as ih =>
    refine ⟨h s a, ?_⟩
    cases step s a with
    | none => trivial
    | some s' => exact ih s'

/-- **Exact conditions on runs.** Where a step from a good state leads to a good state exactly if it is allowed, all states
of a run are good exactly if all its steps are allowed. It is enough to know so of the steps that meet a condition `P`. -/
theorem guarded_iff {ok P : S → A → Prop} {I : S → Prop}
    (hstep : ∀ {s a s'}, I s → P s a → step s a = some s' → (ok s a ↔ I s')) (hi : I s) (hp : Guarded step P s as)
    (hr : run step s as = some s') :
    Guarded step ok s as ↔ ∀ bs s'', bs <+: as → run step s bs = some s'' → I s'' := by
  induction as generalizing s with
  | nil =>
    refine iff_of_true trivial fun bs s'' hbs hr' => ?_
    obtain rfl := List.prefix_nil.1 hbs
    cases hr'
    exact hi
  | cons a as ih =>
    obtain ⟨s1, h1, h2⟩ := run_cons_iff.1 hr
    have hguard : ∀ {Q : S → A → Prop}, Guarded step Q s (a :: as) ↔ Q s a ∧ Guarded step Q s1 as := by
      intro Q
      rw [Guarded, h1]
    obtain ⟨ha, htail⟩ := hguard.1 hp
    rw [hguard]
    constructor
    · rintro ⟨hok, hg⟩ bs s'' hbs hr'
      have hi1 := (hstep hi ha h1).1 hok
      cases bs with
      | nil =>
        cases hr'
        exact hi
      | cons b bs =>
        obtain ⟨rfl, hbs'⟩ := List.cons_prefix_cons.1 hbs
        rw [run_cons h1] at hr'
        exact (ih hi1 htail h2).1 hg bs s'' hbs' hr'
    · intro h
      have hi1 := h [a] s1 ⟨as, rfl⟩ (by simp [run, h1])
      refine ⟨(hstep hi ha h1).2 hi1, (ih hi1 htail h2).2 fun bs s'' hbs hr' => ?_⟩
      exact h (a :: bs) s'' (List.cons_prefix_cons.2 ⟨rfl, hbs⟩) (by rw [run_cons h1]; exact hr')

/-- **Relations between the actions and the state.** The induction is on the run from its end. -/
theorem history_of_run {R : List A → S → Prop} (h0 : R [] s)
    (hstep : ∀ {as s a s'}, R as s → step s a = some s' → R (as ++ [a]) s') (hr : run step s as = some s') :
    R as s' := by
  induction as using List.reverseRecOn generalizing s' with
  | nil =>
    cases hr
    exact h0
  | append_singleton as a ih =>
    obtain ⟨s1, h1, h2⟩ := run_concat_iff.1 hr
    exact hstep (ih h1) h2

/-- **Invariants of runs.** -/
theorem invariant_of_run {I : S → Prop} (hstep : ∀ {s a s'}, I s → step s a = some s' → I s') (hi : I s)
    (hr : run step s as = some s') : I s' :=
  history_of_run (R := fun _ s => I s) hi hstep hr

/-- **Termination.** Where a measure falls with every step of a kind, a run of such steps is no longer than the measure. -/
theorem length_le_of_run {I : S → Prop} {P : A → Prop} {μ : S → ℕ}
    (hstep : ∀ {s a s'}, I s → P a → step s a = some s' → I s' ∧ μ s' < μ s) (hi : I s) (hP : ∀ a ∈ as, P a)
    (hr : run step s as = some s') : I s' ∧ as.length + μ s' ≤ μ s := by
  induction as generalizing s with
  | nil =>
    cases hr
    exact ⟨hi, by simp⟩
  | cons a as ih =>
    obtain ⟨s1, h1, hr⟩ := run_cons_iff.1 hr
    obtain ⟨hi1, hlt⟩ := hstep hi (hP a List.mem_cons_self) h1
    obtain ⟨hi', hle⟩ := ih hi1 (fun b hb => hP b (List.mem_cons_of_mem _ hb)) hr
    refine ⟨hi', ?_⟩
    rw [List.length_cons]
    omega

/-- Where an action stands in a list with one action more. -/
lemma split_concat {pre post : List A} {b : A} :
    as ++ [a] = pre ++ b :: post ↔
      (post = [] ∧ a = b ∧ as = pre) ∨ ∃ post', post = post' ++ [a] ∧ as = pre ++ b :: post' := by
  rcases List.eq_nil_or_concat' post with rfl | ⟨post', x, rfl⟩
  · constructor
    · intro h
      obtain ⟨h1, h2⟩ := List.append_inj' h rfl
      exact Or.inl ⟨rfl, (List.cons.inj h2).1, h1⟩
    · rintro (⟨-, rfl, rfl⟩ | ⟨post', h, -⟩)
      · rfl
      · simp at h
  · rw [← List.cons_append, ← List.append_assoc]
    constructor
    · intro h
      obtain ⟨h1, h2⟩ := List.append_inj' h rfl
      exact Or.inr ⟨post', by rw [(List.cons.inj h2).1], h1⟩
    · rintro (⟨h, -, -⟩ | ⟨p, h, rfl⟩)
      · simp at h
      · obtain ⟨rfl, h2⟩ := List.append_inj' h rfl
        rw [h2]

end Rules

section Simulation

variable {T B : Type*} {step : S → A → Option S} {step' : T → B → Option T} {expand : B → List A} {R : S → T → Prop}

/-- **Simulation by macro steps.** If each action of a second system is possible exactly when the actions it stands for
are, and leads to a related state, so it is for runs. -/
theorem run_rel {P : B → Prop}
    (hstep : ∀ {s t b}, R s t → P b → Option.Rel R (run step s (expand b)) (step' t b)) {s : S} {t : T} (h : R s t)
    {bs : List B} (hok : ∀ b ∈ bs, P b) : Option.Rel R (run step s (bs.flatMap expand)) (run step' t bs) := by
  induction bs generalizing s t with
  | nil => exact .some h
  | cons b bs ih =>
    have hb := hstep h (hok b (by simp))
    rw [List.flatMap_cons, run_append]
    rcases hs : run step s (expand b) with _ | s1 <;> rcases ht : step' t b with _ | t1 <;> rw [hs, ht] at hb
    · simp only [run, ht, Option.bind_none]
      exact .none
    · cases hb
    · cases hb
    · cases hb with
      | some h1 =>
        simp only [run, ht, Option.bind_some]
        exact ih h1 fun x hx => hok x (by simp [hx])

/-- What a run does in the words of a second system. -/
def trace (step : S → A → Option S) (emit : S → A → List B) : S → List A → List B
  | _, [] => []
  | s, a :: as => emit s a ++ match step s a with
    | some s' => trace step emit s' as
    | none => []

/-- **Simulation with silent steps.** If the second system can do what each step of the first one emits, and is related to
it again then, it can do what a run emits. -/
theorem run_sim {emit : S → A → List B}
    (hstep : ∀ {s a s' t}, R s t → step s a = some s' → ∃ t', run step' t (emit s a) = some t' ∧ R s' t') {s s' : S} {t : T}
    {as : List A} (h : R s t) (hr : run step s as = some s') :
    ∃ t', run step' t (trace step emit s as) = some t' ∧ R s' t' := by
  induction as generalizing s t with
  | nil =>
    cases hr
    exact ⟨t, rfl, h⟩
  | cons a as ih =>
    obtain ⟨s1, h1, hr⟩ := run_cons_iff.1 hr
    obtain ⟨t1, ht1, h1'⟩ := hstep h h1
    obtain ⟨t', ht', h'⟩ := ih h1' hr
    refine ⟨t', ?_, h'⟩
    simp only [trace, h1]
    exact run_append_iff.2 ⟨t1, ht1, ht'⟩

end Simulation

end Wrensong.Lib.Transition
