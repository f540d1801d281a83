import Mathlib.Tactic

/-!
# Programs with a state and with errors

A program works on a state and ends with a value or with an error; there is no end where it has no meaning. `Triple P x Q E`
says that from a state with `P` the program comes to an end, with a value and `Q` or with an error and `E`. The rules follow
the way a program is put together.
-/

namespace Wrensong.Lib

/-- Programs with the states `σ` and the errors `ε`. -/
abbrev Prog (σ ε α : Type) := ExceptT ε (StateT σ Option) α

namespace Prog

variable {σ ε α β : Type}

/-- The end that a program comes to. -/
def exec (x : Prog σ ε α) (s : σ) : Option (Except ε α × σ) := x.run.run s

/-- A state transformer without a value. -/
def update (f : σ → σ) : Prog σ ε Unit := modify f

/-- What has no meaning for `none`. -/
def lift (x : Option α) : Prog σ ε α := ExceptT.lift (StateT.lift x)

/-- A check. -/
def check (x : Except ε α) : Prog σ ε α := ExceptT.mk (pure x)

@[simp] lemma exec_pure (a : α) (s : σ) : (pure a : Prog σ ε α).exec s = some (.ok a, s) := rfl

@[simp] lemma exec_throw (e : ε) (s : σ) : (throw e : Prog σ ε α).exec s = some (.error e, s) := rfl

@[simp] lemma exec_get (s : σ) : (get : Prog σ ε σ).exec s = some (.ok s, s) := rfl

@[simp] lemma exec_update (f : σ → σ) (s : σ) : (update f : Prog σ ε Unit).exec s = some (.ok (), f s) := rfl

/-- What follows on an end. -/
def andThen (f : α → Prog σ ε β) : Except ε α × σ → Option (Except ε β × σ)
  | (.ok a, s) => (f a).exec s
  | (.error e, s) => some (.error e, s)

lemma exec_bind (x : Prog σ ε α) (f : α → Prog σ ε β) (s : σ) : (x >>= f).exec s = (x.exec s).bind (andThen f) := by
  unfold exec
  change (x.run.run s).bind _ = _
  cases x.run.run s with
  | none => rfl
  | some r => obtain ⟨_ | _, _⟩ := r <;> rfl

/-- What is to hold at the end. -/
def Ends (Q : α → σ → Prop) (E : ε → σ → Prop) : Except ε α × σ → Prop
  | (.ok a, s) => Q a s
  | (.error e, s) => E e s

/-- **Triples**, for ends that exist. -/
def Triple (P : σ → Prop) (x : Prog σ ε α) (Q : α → σ → Prop) (E : ε → σ → Prop) : Prop :=
  ∀ s, P s → ∃ r, x.exec s = some r ∧ Ends Q E r

namespace Triple

variable {P P' : σ → Prop} {Q Q' : α → σ → Prop} {R : β → σ → Prop} {E E' : ε → σ → Prop} {x y : Prog σ ε α}
  {f : α → Prog σ ε β}

protected lemma pure {a : α} (h : ∀ s, P s → Q a s) : Triple P (pure a) Q E := fun s hs => ⟨_, exec_pure a s, h s hs⟩

protected lemma get {Q : σ → σ → Prop} (h : ∀ s, P s → Q s s) : Triple P get Q E := fun s hs => ⟨_, exec_get s, h s hs⟩

protected lemma update {g : σ → σ} {Q : Unit → σ → Prop} (h : ∀ s, P s → Q () (g s)) : Triple P (update g) Q E :=
  fun s hs => ⟨_, exec_update g s, h s hs⟩

/-- **Composition.** -/
protected theorem bind (hx : Triple P x Q E) (hf : ∀ a, Triple (Q a) (f a) R E) : Triple P (x >>= f) R E := by
  intro s hs
  obtain ⟨⟨a | a, s'⟩, hr, h⟩ := hx s hs
  · exact ⟨(.error a, s'), by rw [exec_bind, hr]; rfl, h⟩
  · obtain ⟨r, hr', h'⟩ := hf a s' h
    exact ⟨r, by rw [exec_bind, hr]; exact hr', h'⟩

/-- **Consequence.** -/
protected theorem imp (h : Triple P x Q E) (hP : ∀ s, P' s → P s) (hQ : ∀ a s, Q a s → Q' a s)
    (hE : ∀ e s, E e s → E' e s) : Triple P' x Q' E' := by
  intro s hs
  obtain ⟨⟨a | a, s'⟩, hr, h⟩ := h s (hP s hs)
  · exact ⟨_, hr, hE a s' h⟩
  · exact ⟨_, hr, hQ a s' h⟩

lemma error (h : Triple P x Q E) (hE : ∀ e s, E e s → E' e s) : Triple P x Q E' := h.imp (fun _ => id) (fun _ _ => id) hE

protected lemma check {c : Except ε α} {a : α} (hc : c = .ok a) (h : ∀ s, P s → Q a s) : Triple P (check c) Q E :=
  fun s hs => ⟨(.ok a, s), by rw [hc]; rfl, h s hs⟩

protected lemma lift {c : Option α} {a : α} (hc : c = some a) (h : ∀ s, P s → Q a s) : Triple P (lift c) Q E :=
  fun s hs => ⟨(.ok a, s), by rw [hc]; rfl, h s hs⟩

/-- What the precondition says about other things than the state. -/
lemma of_and {p : Prop} (h : p → Triple P x Q E) : Triple (fun s => P s ∧ p) x Q E := fun s hs => h hs.2 s hs.1

lemma of_exists {ι : Sort*} {P : ι → σ → Prop} (h : ∀ i, Triple (P i) x Q E) : Triple (fun s => ∃ i, P i s) x Q E :=
  fun s hs => hs.elim fun i hi => h i s hi

protected lemma ite {c : Prop} [Decidable c] (ht : c → Triple P x Q E) (hf : ¬ c → Triple P y Q E) :
    Triple P (if c then x else y) Q E := by
  split
  · exact ht ‹_›
  · exact hf ‹_›

end Triple

end Prog

end Wrensong.Lib
