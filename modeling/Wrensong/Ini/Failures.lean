import Wrensong.Ini.Alloc

/-!
# Readings in which allocations fail

`Survives` says that a reading goes to its end without an access that has no defined result, frees its line buffer once,
reports what failed, and keeps the sections that were in the table. Three failures it does not survive. A line buffer that
cannot be grown is freed where this is found, and again behind the loop. A section array or an entry array that cannot be
grown is reported and then stored into. A section from behind the tenth whose name cannot be allocated has an entry array
that was never set. `Reading.Spared` says that a round meets none of them, and that the capacities it asks for are of the type
`int`. On a text on which the counters of the reader stay in their types, `survives_iff` says that a reading survives exactly
if all its rounds are spared and the text fits into the line buffer.

`Held` is what every round keeps, be its allocations as they may.
-/

namespace Wrensong.Ini

open Wrensong.Lib Wrensong.Lib.Bytes Wrensong.Lib.Transition

/-- What the reading leaves is as if all had gone well, but for what failed. -/
structure RawResult.Survived (t : RawTable) (r : RawResult) : Prop where
  freed : r.frees = r.buffers
  reported : (r.failed.map Site.message).Sublist r.reports
  kept : t.cells <+: r.sections.cells

/-- `_ini_read` into the table `t` survives the failures of its allocations. -/
def Survives (t : RawTable) (first : Bool) (rounds : List (UInt8 × Outcomes)) (error : Bool) : Prop :=
  ∃ r, readRaw 128 t first rounds error = some r ∧ r.Survived t

/-! ### The rounds that are spared -/

/-- The array has, or gets, room for one more entry. -/
def EntryArray.Takes (o : Outcomes) : EntryArray → Prop
  | .unset => False
  | .null => o.entry = true
  | .block entries => HasRoom entries o.entry

/-- The section array has, or gets, room for one more section. -/
def RawOutput.RoomForSection (m : RawOutput) (o : Outcomes) : Prop := HasRoom m.sections o.sections

/-- The entry array that the next entry goes to: that of the current section, or of the one that is created for it. -/
def RawOutput.target (m : RawOutput) (o : Outcomes) : EntryArray :=
  match m.currentSection with
  | none => (newSection m.sections.cells.length o (.ofBlock [])).entry
  | some p => ((m.sectionAt p).map RawSection.entry).getD .unset

/-- The character is a newline that puts an entry. -/
def Reading.PutsEntry (w : Reading) (c : UInt8) : Prop :=
  w.line.inComment = false ∧ c = LF ∧ (w.line.state = .Value ∨ w.line.state = .Comment)

/-- The character creates a section. -/
def Reading.OpensSection (w : Reading) (c : UInt8) : Prop :=
  (w.line.inComment = false ∧ c = RBRACKET) ∨ (w.PutsEntry c ∧ w.out.currentSection = none)

/-- The round does not meet a failure that the reader does not survive. -/
structure Reading.Spared (w : Reading) (a : UInt8 × Outcomes) : Prop where
  buffer : w.NeedsRoom → a.2.buffer = true
  sections : w.OpensSection a.1 → w.out.RoomForSection a.2
  entry : w.PutsEntry a.1 → (w.out.target a.2).Takes a.2

instance (o : Outcomes) : DecidablePred (EntryArray.Takes o)
  | .unset => inferInstanceAs (Decidable False)
  | .null => inferInstanceAs (Decidable (_ = _))
  | .block _ => inferInstanceAs (Decidable (HasRoom _ _))

instance (m : RawOutput) (o : Outcomes) : Decidable (m.RoomForSection o) := inferInstanceAs (Decidable (HasRoom _ _))

instance (w : Reading) (c : UInt8) : Decidable (w.PutsEntry c) := inferInstanceAs (Decidable (_ ∧ _ ∧ _))

instance (w : Reading) (c : UInt8) : Decidable (w.OpensSection c) := inferInstanceAs (Decidable (_ ∨ _))

instance (w : Reading) (a : UInt8 × Outcomes) : Decidable (w.Spared a) :=
  decidable_of_iff ((w.NeedsRoom → a.2.buffer = true) ∧ (w.OpensSection a.1 → w.out.RoomForSection a.2) ∧
    (w.PutsEntry a.1 → (w.out.target a.2).Takes a.2)) ⟨fun ⟨h1, h2, h3⟩ => ⟨h1, h2, h3⟩, fun ⟨h1, h2, h3⟩ => ⟨h1, h2, h3⟩⟩

/-- The same, for the event of the round. -/
def RawOutput.Spares (m : RawOutput) (o : Outcomes) : Option Event → Prop
  | some (.header _) => m.RoomForSection o
  | some (.entry _ _) => (m.currentSection = none → m.RoomForSection o) ∧ (m.target o).Takes o
  | _ => True

section Spared

variable {w : Reading} {l : Lex} {n : ℕ} {o : Outcomes} {c : UInt8}

lemma Reading.Spared.grows (h : w.Spared (c, o)) : ¬ (w.NeedsRoom ∧ o.buffer = false) := by
  rintro ⟨hn, ho⟩
  rw [h.buffer hn] at ho
  cases ho

lemma putsEntry_iff (h : Sim w.line l n) : w.PutsEntry c ↔ ∃ k v, l.event c = some (.entry k v) := by
  unfold Reading.PutsEntry Lex.event
  rw [h.inComment, h.state]
  by_cases hc : l.inComment = true
  · simp [hc]
  rw [if_neg hc]
  by_cases hlf : c = LF
  · rw [if_pos hlf, Lex.lineEvent]
    cases hs : l.state <;> simp [hlf, hc]
  · simp [hlf]

lemma opensSection_iff (h : Sim w.line l n) : w.OpensSection c ↔
    (∃ name, l.event c = some (.header name)) ∨
      ((∃ k v, l.event c = some (.entry k v)) ∧ w.out.currentSection = none) := by
  have hheader : (w.line.inComment = false ∧ c = RBRACKET) ↔ ∃ name, l.event c = some (.header name) := by
    unfold Lex.event
    rw [h.inComment]
    by_cases hc : l.inComment = true
    · simp [hc]
    rw [if_neg hc]
    by_cases hlf : c = LF
    · rw [if_pos hlf, Lex.lineEvent]
      cases hs : l.state <;> simp [hlf, show LF ≠ RBRACKET by decide]
    · rw [if_neg hlf]
      by_cases hrb : c = RBRACKET <;> simp [hrb, hc]
  rw [Reading.OpensSection, hheader, putsEntry_iff h]

/-- What a round needs is what its event needs, and the room for its character. -/
lemma spared_iff (h : Sim w.line l n) :
    w.Spared (c, o) ↔ (w.NeedsRoom → o.buffer = true) ∧ w.out.Spares o (l.event c) := by
  have hputs := putsEntry_iff (c := c) h
  have hopens := opensSection_iff (c := c) h
  constructor
  · rintro ⟨hb, hs, he⟩
    refine ⟨hb, ?_⟩
    rw [hopens] at hs
    rw [hputs] at he
    cases hev : l.event c with
    | none => trivial
    | some e =>
      cases e with
      | header name => exact hs (Or.inl ⟨name, hev⟩)
      | entry k v => exact ⟨fun hcur => hs (Or.inr ⟨⟨k, v, hev⟩, hcur⟩), he ⟨k, v, hev⟩⟩
      | error m => trivial
  · rintro ⟨hb, hs⟩
    refine ⟨hb, fun ho => ?_, fun hp => ?_⟩
    · rcases hopens.1 ho with ⟨name, hev⟩ | ⟨⟨k, v, hev⟩, hcur⟩
      · rw [hev] at hs
        exact hs
      · rw [hev] at hs
        exact hs.1 hcur
    · obtain ⟨k, v, hev⟩ := hputs.1 hp
      rw [hev] at hs
      exact hs.2

end Spared

/-! ### What every round keeps -/

/-- The failures are reported, the sections of `t` are there, and the current section is one that was created behind them. -/
structure Held (t : RawTable) (m : RawOutput) : Prop where
  reported : (m.failed.map Site.message).Sublist m.reports
  kept : t.cells <+: m.sections.cells
  current : ∀ p ∈ m.currentSection, p.array = m.array ∧ t.cells.length ≤ p.index ∧ p.index < m.sections.cells.length

section Held

variable {t : RawTable} {m m' : RawOutput} {o : Outcomes} {key value : CString}

lemma Held.report (h : Held t m) (message : List UInt8) : Held t (m.report message) :=
  ⟨h.reported.trans (List.sublist_append_left _ _), h.kept, h.current⟩

lemma reported_of_failsMore {fs : List Site} (h : (m.failed.map Site.message).Sublist m.reports) (hm : FailsMore m m' fs) :
    (m'.failed.map Site.message).Sublist m'.reports := by
  rw [hm.1, hm.2, List.map_append]
  exact h.append (List.Sublist.refl _)

lemma Held.createSection (h : Held t m) (hm : m.createSection o key = some m') : Held t m' := by
  obtain ⟨hsec, hcur, hfail⟩ := createSection_cases hm
  have hlen := h.kept.length_le
  refine ⟨reported_of_failsMore h.reported hfail, ?_, ?_⟩
  · rw [hsec]
    exact h.kept.trans (List.prefix_append _ _)
  · intro p hp
    rw [hcur] at hp
    cases hp
    rw [hsec, List.length_append, List.length_singleton]
    exact ⟨rfl, hlen, Nat.lt_succ_self _⟩

/-- An entry changes no section of `t`, since the current section stands behind them. -/
lemma Held.createEntry (h : Held t m) (hm : m.createEntry o key value = some m') : Held t m' := by
  obtain ⟨p, sec, entry, hp, -, -, hsec, harray, hcur, hfail⟩ := createEntry_cases hm
  obtain ⟨h1, h2, h3⟩ := h.current p hp
  refine ⟨reported_of_failsMore h.reported hfail, ?_, ?_⟩
  · have hkept := List.prefix_iff_eq_take.1 h.kept
    rw [hsec, GrowArray.cells_modify, List.prefix_iff_eq_take, List.take_modify, ← hkept]
    exact (List.modify_eq_self h2).symm
  · intro p' hp'
    rw [hcur] at hp'
    cases hp'
    rw [harray, hsec, GrowArray.cells_modify, List.length_modify]
    exact ⟨h1, h2, h3⟩

lemma push_isSome (a : EntryArray) (e : RawEntry) : (∃ a', a.push o e = some a') ↔ a.Takes o := by
  cases a with
  | unset => simp [EntryArray.push, EntryArray.Takes]
  | null => cases ho : o.entry <;> simp [EntryArray.push, EntryArray.Takes, ho]
  | block entries =>
    unfold EntryArray.push EntryArray.Takes
    dsimp only
    split_ifs with h <;> simp [h]

/-- The entry array that an entry goes to, once there is a current section. -/
lemma createEntry_isSome_target {p : SectionPointer} (h : Held t m) (hp : m.currentSection = some p) (key value : CString) :
    (∃ m', m.createEntry o key value = some m') ↔ (m.target o).Takes o := by
  obtain ⟨h1, -, h3⟩ := h.current p hp
  have hsec : m.sectionAt p = some m.sections.cells[p.index] := by
    rw [RawOutput.sectionAt, if_pos h1, List.getElem?_eq_getElem h3]
  rw [createEntry_isSome hp]
  simp only [RawOutput.target, hp, hsec, Option.map_some, Option.getD_some, Option.some.injEq, exists_eq_left']
  exact push_isSome _ _

/-- The section that is created for an entry is the one it goes to. -/
lemma target_createSection (hcur : m.currentSection = none) (hm : m.createSection o (.ofBlock []) = some m') :
    m'.target o = m.target o := by
  obtain ⟨hsec, hcur', -⟩ := createSection_cases hm
  simp [RawOutput.target, hcur, hcur', RawOutput.sectionAt, hsec]

/-- **What an event needs.** -/
lemma apply_isSome (h : Held t m) (e : Option Event) : (∃ m', m.applyAny o e = some m') ↔ m.Spares o e := by
  cases e with
  | none => simp [RawOutput.applyAny, RawOutput.Spares]
  | some e =>
    cases e with
    | header name => exact createSection_isSome m o name
    | error message => simp [RawOutput.applyAny, RawOutput.apply, RawOutput.Spares]
    | entry key value =>
      simp only [RawOutput.applyAny, RawOutput.apply, RawOutput.Spares, RawOutput.needSection]
      cases hcur : m.currentSection with
      | some p =>
        simp only [Option.bind_some, reduceCtorEq, false_imp_iff, true_and]
        exact createEntry_isSome_target h hcur key value
      | none =>
        simp only [forall_const]
        rw [RawOutput.RoomForSection, ← createSection_isSome m o (.ofBlock [])]
        constructor
        · rintro ⟨m', hm'⟩
          obtain ⟨m1, hm1, hm2⟩ := Option.bind_eq_some_iff.1 hm'
          obtain ⟨-, hcur1, -⟩ := createSection_cases hm1
          refine ⟨⟨m1, hm1⟩, ?_⟩
          rw [← target_createSection hcur hm1]
          exact (createEntry_isSome_target (h.createSection hm1) hcur1 key value).1 ⟨m', hm2⟩
        · rintro ⟨⟨m1, hm1⟩, htake⟩
          obtain ⟨-, hcur1, -⟩ := createSection_cases hm1
          rw [← target_createSection hcur hm1] at htake
          obtain ⟨m', hm2⟩ := (createEntry_isSome_target (h.createSection hm1) hcur1 key value).2 htake
          exact ⟨m', by rw [hm1, Option.bind_some, hm2]⟩

/-- **What an event keeps.** -/
lemma Held.applyAny (h : Held t m) {e : Option Event} (hm : m.applyAny o e = some m') : Held t m' := by
  cases e with
  | none =>
    cases hm
    exact h
  | some e =>
    cases e with
    | header name => exact h.createSection hm
    | error message =>
      cases hm
      exact h.report message
    | entry key value =>
      obtain ⟨m1, hm1, hm2⟩ := Option.bind_eq_some_iff.1 (show (m.needSection o).bind _ = some m' from hm)
      refine Held.createEntry ?_ hm2
      unfold RawOutput.needSection at hm1
      split at hm1
      · exact h.createSection hm1
      · cases hm1
        exact h

end Held

/-! ### Runs -/

section Run

variable {t : RawTable} {w w' : Reading} {l : Lex} {n : ℕ} {rounds : List (UInt8 × Outcomes)}

/-- Behind a line buffer that could not be grown nothing is read. -/
lemma run_broken (hb : w.broken = true) : run Reading.step w rounds = some w := by
  induction rounds with
  | nil => rfl
  | cons a rounds ih =>
    have hstep : w.step a = some w := by rw [Reading.step, if_pos hb]
    rw [run_cons hstep, ih]

lemma unbroken_of_run (hr : run Reading.step w rounds = some w') (hb' : w'.broken = false) : w.broken = false := by
  by_contra hb
  rw [run_broken (by simpa using hb)] at hr
  cases hr
  exact hb hb'

/-- **One round.** It is spared, and its character fits, exactly if the loop goes on behind it. -/
lemma step_iff (h : Sim w.line l n) (hb : w.broken = false) (hheld : Held t w.out) (c : UInt8) (o : Outcomes)
    (hsmall : (l.next c).Small) (hline : w.line.line + [c].count LF ≤ INT_MAX) :
    (∃ w', w.step (c, o) = some w' ∧ w'.broken = false) ↔ (l.next c).text.length ≤ l.room n ∧ w.Spared (c, o) := by
  by_cases hroom : w.NeedsRoom ∧ o.buffer = false
  · refine iff_of_false ?_ fun hs => hs.2.grows hroom
    rintro ⟨w', hw, hb'⟩
    rw [Reading.step, if_neg (by simp [hb]), if_pos hroom] at hw
    cases hw
    cases hb'
  have hbuffer : w.NeedsRoom → o.buffer = true := fun hn => by
    by_contra ho
    exact hroom ⟨hn, by simpa using ho⟩
  rw [spared_iff h, and_iff_right hbuffer]
  by_cases hfit : (l.next c).text.length ≤ l.room n
  · obtain ⟨r', -, -, hstep⟩ := step_eq h hb hroom hfit hsmall hline
    rw [and_iff_right hfit, ← apply_isSome hheld, hstep]
    constructor
    · rintro ⟨w', hw, -⟩
      obtain ⟨m', hm, -⟩ := Option.map_eq_some_iff.1 hw
      exact ⟨m', hm⟩
    · rintro ⟨m', hm⟩
      exact ⟨{ w with line := r', out := m' }, by rw [hm, Option.map_some], hb⟩
  · rw [step_over h hb hroom hfit hsmall]
    simp [hfit]

/-- What a round keeps behind which the loop goes on. -/
lemma step_held (h : Sim w.line l n) (hb : w.broken = false) (hheld : Held t w.out) {c : UInt8} {o : Outcomes}
    (hsmall : (l.next c).Small) (hline : w.line.line + [c].count LF ≤ INT_MAX) (hs : w.step (c, o) = some w')
    (hb' : w'.broken = false) : (Sim w'.line (l.next c) (l.room n) ∧ w'.line.line ≤ w.line.line + [c].count LF) ∧
      Held t w'.out ∧ w'.frees = w.frees := by
  obtain ⟨hfit, hspared⟩ := (step_iff h hb hheld c o hsmall hline).1 ⟨w', hs, hb'⟩
  obtain ⟨r', hsim, hkept, hstep⟩ := step_eq h hb hspared.grows hfit hsmall hline
  rw [hs] at hstep
  obtain ⟨m', hm, rfl⟩ := Option.map_eq_some_iff.1 hstep.symm
  exact ⟨⟨hsim, hkept⟩, hheld.applyAny hm, rfl⟩

/-- The counters stay in their types on the text of the rounds, behind the lines that were counted. -/
def CountsOn (l : Lex) (line : ℕ) (rounds : List (UInt8 × Outcomes)) : Prop :=
  l.Counted (rounds.map Prod.fst) ∧ line + (rounds.map Prod.fst).count LF ≤ INT_MAX

lemma CountsOn.head {c : UInt8} {o : Outcomes} {k : ℕ} (h : CountsOn l k ((c, o) :: rounds)) :
    (l.next c).Small ∧ k + [c].count LF ≤ INT_MAX := by
  have hline := h.2
  rw [List.map_cons, ← List.singleton_append, List.count_append] at hline
  dsimp only at hline
  exact ⟨h.1.1, by omega⟩

lemma CountsOn.tail {c : UInt8} {o : Outcomes} {k k' : ℕ} (h : CountsOn l k ((c, o) :: rounds))
    (hk : k' ≤ k + [c].count LF) : CountsOn (l.next c) k' rounds := by
  have hline := h.2
  rw [List.map_cons, ← List.singleton_append, List.count_append] at hline
  dsimp only at hline
  exact ⟨h.1.2, by omega⟩

/-- **Runs.** The loop reads the whole text exactly if the text fits and all rounds are spared. The induction is on the
rounds. -/
lemma run_iff (h : Sim w.line l n) (hb : w.broken = false) (hheld : Held t w.out) (hcount : CountsOn l w.line.line rounds) :
    (∃ w', run Reading.step w rounds = some w' ∧ w'.broken = false) ↔
      l.Fits n (rounds.map Prod.fst) ∧ Guarded Reading.step Reading.Spared w rounds := by
  induction rounds generalizing w l n with
  | nil => simp [Lex.Fits, Guarded, hb]
  | cons a rounds ih =>
    obtain ⟨c, o⟩ := a
    obtain ⟨hsmall, hline⟩ := hcount.head
    have hone := step_iff h hb hheld c o hsmall hline
    rw [List.map_cons, Lex.Fits, Guarded]
    by_cases hgo : (l.next c).text.length ≤ l.room n ∧ w.Spared (c, o)
    · obtain ⟨w1, hs, hb1⟩ := hone.2 hgo
      obtain ⟨⟨h1, hkept⟩, h2, -⟩ := step_held h hb hheld hsmall hline hs hb1
      rw [run_cons hs, ih h1 hb1 h2 (hcount.tail hkept), hs]
      simp only [hgo.1, hgo.2, true_and]
    · refine iff_of_false ?_ ?_
      · rintro ⟨w', hr, hb'⟩
        obtain ⟨w1, hs, hr⟩ := run_cons_iff.1 hr
        exact hgo (hone.1 ⟨w1, hs, unbroken_of_run hr hb'⟩)
      · rintro ⟨⟨h1, -⟩, h2, -⟩
        exact hgo ⟨h1, h2⟩

/-- What a whole loop keeps. -/
lemma run_held (h : Sim w.line l n) (hb : w.broken = false) (hheld : Held t w.out) (hcount : CountsOn l w.line.line rounds)
    (hr : run Reading.step w rounds = some w') (hb' : w'.broken = false) : Held t w'.out ∧ w'.frees = w.frees := by
  induction rounds generalizing w l n with
  | nil =>
    cases hr
    exact ⟨hheld, rfl⟩
  | cons a rounds ih =>
    obtain ⟨w1, hs, hr⟩ := run_cons_iff.1 hr
    have hb1 := unbroken_of_run hr hb'
    obtain ⟨hsmall, hline⟩ := hcount.head
    obtain ⟨⟨h1, hkept⟩, h2, h3⟩ := step_held h hb hheld hsmall hline hs hb1
    obtain ⟨h4, h5⟩ := ih h1 hb1 h2 (hcount.tail hkept) hr
    exact ⟨h4, h5.trans h3⟩

/-- A line buffer that cannot be grown is freed in this round. -/
lemma step_broken (h : Sim w.line l n) (hb : w.broken = false) {c : UInt8} {o : Outcomes} (hsmall : (l.next c).Small)
    (hline : w.line.line + [c].count LF ≤ INT_MAX) (hs : w.step (c, o) = some w') (hb' : w'.broken = true) :
    w'.frees = w.frees + 1 := by
  by_cases hroom : w.NeedsRoom ∧ o.buffer = false
  · rw [Reading.step, if_neg (by simp [hb]), if_pos hroom] at hs
    cases hs
    rfl
  by_cases hfit : (l.next c).text.length ≤ l.room n
  · obtain ⟨r', -, -, hstep⟩ := step_eq h hb hroom hfit hsmall hline
    rw [hs] at hstep
    obtain ⟨m', -, rfl⟩ := Option.map_eq_some_iff.1 hstep.symm
    rw [hb] at hb'
    cases hb'
  · rw [step_over h hb hroom hfit hsmall] at hs
    cases hs

/-- A loop that was left has freed the line buffer. -/
lemma run_frees (h : Sim w.line l n) (hb : w.broken = false) (hheld : Held t w.out) (hcount : CountsOn l w.line.line rounds)
    (hr : run Reading.step w rounds = some w') (hb' : w'.broken = true) : w'.frees = w.frees + 1 := by
  induction rounds generalizing w l n with
  | nil =>
    cases hr
    rw [hb] at hb'
    cases hb'
  | cons a rounds ih =>
    obtain ⟨w1, hs, hr⟩ := run_cons_iff.1 hr
    obtain ⟨hsmall, hline⟩ := hcount.head
    cases hb1 : w1.broken with
    | true =>
      rw [run_broken hb1] at hr
      cases hr
      exact step_broken h hb hsmall hline hs hb1
    | false =>
      obtain ⟨⟨h1, hkept⟩, h2, h3⟩ := step_held h hb hheld hsmall hline hs hb1
      rw [ih h1 hb1 h2 (hcount.tail hkept) hr, h3]

end Run

/-- **When a reading survives the failures of its allocations**, on a text on which its counters stay in their types. -/
theorem survives_iff (t : RawTable) (first : Bool) (rounds : List (UInt8 × Outcomes)) (error : Bool)
    (hcount : Counted (rounds.map Prod.fst)) :
    Survives t first rounds error ↔ first = false ∨
      (FitsBuffer (rounds.map Prod.fst) ∧ Guarded Reading.step Reading.Spared (.start 128 t) rounds) := by
  cases first with
  | false =>
    refine iff_of_true ⟨_, rfl, rfl, ?_, List.prefix_rfl⟩ (Or.inl rfl)
    exact List.Sublist.refl _
  | true =>
    have hsim : Sim (Reading.start 128 t).line {} 128 := sim_start le_rfl _
    have hheld : Held t (Reading.start 128 t).out := ⟨List.Sublist.refl _, List.prefix_rfl, fun p hp => by cases hp⟩
    have hcounts : CountsOn {} (Reading.start 128 t).line.line rounds := ⟨hcount.1, by simpa [Reading.start] using hcount.2⟩
    simp only [Survives, readRaw, if_true, reduceCtorEq, false_or]
    rw [FitsBuffer, ← run_iff hsim rfl hheld hcounts]
    constructor
    · rintro ⟨r, hr, hsurv⟩
      obtain ⟨w', hw, rfl⟩ := Option.map_eq_some_iff.1 hr
      refine ⟨w', hw, ?_⟩
      by_contra hb
      have hfrees := run_frees hsim rfl hheld hcounts hw (by simpa using hb)
      have hfreed : w'.frees + 1 = 1 := hsurv.freed
      omega
    · rintro ⟨w', hw, hb⟩
      obtain ⟨hheld', hfrees⟩ := run_held hsim rfl hheld hcounts hw hb
      refine ⟨w'.finish error, by rw [hw, Option.map_some], ?_, ?_, hheld'.kept⟩
      · exact congrArg (· + 1) hfrees
      · exact hheld'.reported.trans (List.sublist_append_left _ _)

/-- A section whose name cannot be allocated, and an entry in it: the array of its entries is null, and `realloc` makes one. -/
theorem survives_noName : Survives (.new 10 RawSection) true
    ((bytes "[s").map (·, .all) ++ (RBRACKET, { Outcomes.all with name := false }) :: (bytes "\nk=1\n").map (·, .all)) false :=
  (survives_iff _ true _ false (by decide +kernel)).2 (Or.inr (by decide +kernel))

/-- The round of a `]` in which the section array cannot be grown. -/
def noSections : Outcomes := { Outcomes.all with sections := false }

/-- A header in an empty table, whose section array cannot be grown. The new section is stored through null. -/
theorem not_survives : ¬ ∀ (t : RawTable) (first : Bool) (rounds : List (UInt8 × Outcomes)) (error : Bool),
    Survives t first rounds error := by
  intro h
  obtain ⟨r, hr, -⟩ := h (.new 10 RawSection) true
    [(LBRACKET, .all), (115, .all), (RBRACKET, noSections), (LF, .all)] false
  have hnone : readRaw 128 (.new 10 RawSection) true
      [(LBRACKET, .all), (115, .all), (RBRACKET, noSections), (LF, .all)] false = none := by decide +kernel
  rw [hnone] at hr
  cases hr

end Wrensong.Ini
