import Wrensong.Ini.Lines

/-!
# Saving a table that was read

`read_write` starts from tables whose strings are tidy. A reader also leaves comments, strings that end in a space, and
names with a mark in them. `reloads_iff` says which of the tables that were read come back when they are written and read
again. The writer has a line of its own for a key that starts with `;`, but the reader completes it only at the newline of
the line behind it. So a comment comes back where a blank line follows, and nowhere else (`Saved`).
-/

namespace Wrensong.Ini

open Wrensong.Lib Wrensong.Lib.Bytes

/-! ### The tables that are saved -/

/-- The entries of a section are kept, but the last one may be a comment with `;`, in a section that is not the last. -/
def SavedEntries (last : Bool) : List IniEntry → Prop
  | [] => True
  | e :: es =>
    (Kept .Key e.key.val ∧ Kept .Value e.value.val ∧ SavedEntries last es) ∨
      (e.key.val.head? = some SEMICOLON ∧ es = [] ∧ last = false)

/-- The names of the sections are kept, and their entries are saved. -/
def SavedSections : List IniSection → Prop
  | [] => True
  | s :: ss => Kept .Section s.name.val ∧ SavedEntries ss.isEmpty s.entries.cells ∧ SavedSections ss

/-- Every string of the table comes back from its line. -/
def Saved (t : IniTable) : Prop := SavedSections t.sections.cells

section Decidable

instance SavedEntries.decidable (last : Bool) : ∀ es : List IniEntry, Decidable (SavedEntries last es)
  | [] => inferInstanceAs (Decidable True)
  | e :: es =>
    have : Decidable (SavedEntries last es) := SavedEntries.decidable last es
    inferInstanceAs (Decidable ((Kept .Key e.key.val ∧ Kept .Value e.value.val ∧ SavedEntries last es) ∨
      (e.key.val.head? = some SEMICOLON ∧ es = [] ∧ last = false)))

instance SavedSections.decidable : ∀ ss : List IniSection, Decidable (SavedSections ss)
  | [] => inferInstanceAs (Decidable True)
  | s :: ss =>
    have : Decidable (SavedSections ss) := SavedSections.decidable ss
    inferInstanceAs (Decidable (Kept .Section s.name.val ∧ SavedEntries ss.isEmpty s.entries.cells ∧ SavedSections ss))

instance : DecidablePred Saved := fun t => inferInstanceAs (Decidable (SavedSections t.sections.cells))

end Decidable

/-! ### Sections -/

section Sections

variable {last : Bool} {rest : List UInt8} {E : List Event}

/-- **The entries of a section.** Behind them is the end of the text, or the blank line in front of the next section. -/
lemma entries_iff {es : List IniEntry} (hes : ∀ e ∈ es, StoredEntry e.key e.value)
    (hr : (last = true ∧ rest = []) ∨ (last = false ∧ ∃ s, rest = LF :: s)) :
    Lex.lineStart.events (es.flatMap writeEntry ++ rest) = (es.map fun e => .entry e.key e.value) ++ E ↔
      SavedEntries last es ∧ Lex.lineStart.events rest = E := by
  induction es with
  | nil => simp [SavedEntries]
  | cons e es ih =>
    have he := hes e (List.mem_cons_self ..)
    have hrest := ih fun e' he' => hes e' (List.mem_cons_of_mem _ he')
    rw [List.flatMap_cons, List.append_assoc, List.map_cons, List.cons_append]
    have hmiss : (∀ ev ∈ (Lex.lineStart.events (writeEntry e ++ (es.flatMap writeEntry ++ rest))).head?,
        ¬ ev.Names e.key) → Lex.lineStart.events (writeEntry e ++ (es.flatMap writeEntry ++ rest)) ≠
          .entry e.key e.value :: ((es.map fun e => .entry e.key e.value) ++ E) := by
      intro h heq
      rw [heq] at h
      exact h _ rfl rfl
    by_cases hp : Kept .Key e.key.val
    · have hsemi := hp.not_semicolon
      obtain ⟨w, hw, hline⟩ := entry_line he hp (es.flatMap writeEntry ++ rest)
      rw [hline, List.cons.injEq, hrest, Event.entry.injEq, hw]
      simp only [SavedEntries, hp, hsemi, true_and, false_and, or_false, and_assoc]
    by_cases hs : e.key.val.head? = some SEMICOLON
    · cases es with
      | nil =>
        rw [comment_line_events he hs]
        rcases hr with ⟨rfl, rfl⟩ | ⟨rfl, s, rfl⟩
        · simp [SavedEntries, hp, Lex.events]
        · have hval : CString.ofBlock [] = e.value := by
            ext1
            exact (he.comment hs).symm
          have hblank : Lex.lineStart.events (LF :: s) = Lex.lineStart.events s := rfl
          rw [List.flatMap_nil, List.nil_append, commentEnd_newline, hval, hblank]
          simp [SavedEntries, hs]
      | cons e' es =>
        constructor
        · intro h
          refine absurd h (hmiss ?_)
          rw [comment_line_events he hs, List.flatMap_cons, List.append_assoc]
          exact commentEnd_entry e.key (hes e' (by simp)) _
        · rintro ⟨⟨h, -⟩ | ⟨-, h, -⟩, -⟩
          · exact absurd h hp
          · cases h
    · constructor
      · intro h
        exact absurd h (hmiss (entry_misses he hp hs _))
      · rintro ⟨⟨h, -⟩ | ⟨h, -⟩, -⟩
        · exact absurd h hp
        · exact absurd h hs

/-- **A section**, from the start of the text or of a line. -/
lemma section_iff {l : Lex} {sec : IniSection} (hl : l = {} ∨ l = .lineStart) (hsec : StoredGroup sec.content)
    (hr : (last = true ∧ rest = []) ∨ (last = false ∧ ∃ s, rest = LF :: s)) :
    l.events (writeSection 0 sec ++ rest) = sectionEvents sec.content ++ E ↔
      Kept .Section sec.name.val ∧ SavedEntries last sec.entries.cells ∧ Lex.lineStart.events rest = E := by
  have hentries : ∀ e ∈ sec.entries.cells, StoredEntry e.key e.value := fun e he =>
    hsec.2 (e.key, e.value) (List.mem_map_of_mem he)
  have hname : StoredKey sec.name.val := hsec.1
  have hsplit : sectionEvents sec.content ++ E =
      .header sec.name :: ((sec.entries.cells.map fun e => .entry e.key e.value) ++ E) := by
    simp [sectionEvents, IniSection.content]
  have hwrite : writeSection 0 sec ++ rest =
      LBRACKET :: sec.name.val ++ [RBRACKET, LF] ++ (sec.entries.cells.flatMap writeEntry ++ rest) := by
    simp [writeSection]
  rw [hsplit, hwrite]
  by_cases hp : Kept .Section sec.name.val
  · rw [header_line hl hname hp, List.cons.injEq, entries_iff hentries hr]
    simp only [hp, true_and]
  · constructor
    · intro h
      have hhead := header_misses hl hname hp (sec.entries.cells.flatMap writeEntry ++ rest)
      rw [h] at hhead
      exact absurd rfl (hhead _ rfl)
    · intro h
      exact absurd h.1 hp

lemma sections_iff {l : Lex} {sec : IniSection} {secs : List IniSection} (hl : l = {} ∨ l = .lineStart)
    (h : ∀ s ∈ sec :: secs, StoredGroup s.content) :
    l.events (writeSection 0 sec ++ secs.flatMap fun s => LF :: writeSection 0 s) =
        ((sec :: secs).map IniSection.content).flatMap sectionEvents ↔ SavedSections (sec :: secs) := by
  induction secs generalizing l sec with
  | nil =>
    rw [List.map_cons, List.flatMap_cons, List.flatMap_nil, section_iff hl (h sec (by simp)) (Or.inl ⟨rfl, rfl⟩)]
    simp [SavedSections, Lex.events]
  | cons sec' secs ih =>
    have htail := ih (Or.inr rfl) fun s hs => h s (List.mem_cons_of_mem _ hs)
    rw [List.flatMap_cons, List.cons_append, List.map_cons, List.flatMap_cons,
      section_iff hl (h sec (by simp)) (Or.inr ⟨rfl, _, rfl⟩)]
    exact and_congr_right fun _ => and_congr_right fun _ => htail

lemma writeSection_succ (i : ℕ) (sec : IniSection) : writeSection (i + 1) sec = LF :: writeSection 0 sec := by
  simp [writeSection]

/-- **The written table** is read section by section. -/
lemma events_write_iff {t : IniTable} (h : ∀ g ∈ t.contents, StoredGroup g) :
    events (iniTableWrite t) = t.contents.flatMap sectionEvents ↔ Saved t := by
  have hcont : t.contents = t.sections.cells.map IniSection.content := rfl
  have hsecs : ∀ sec ∈ t.sections.cells, StoredGroup sec.content := fun sec hsec => h _ (List.mem_map_of_mem hsec)
  unfold Saved iniTableWrite
  rw [hcont]
  cases hcells : t.sections.cells with
  | nil => simp [SavedSections, events, Lex.events]
  | cons sec secs =>
    have hmap : (secs.mapIdx fun i => writeSection (i + 1)) = secs.map fun s => LF :: writeSection 0 s := by
      rw [List.mapIdx_eq_iff]
      intro i
      rw [List.getElem?_map]
      exact congrArg (fun f => secs[i]?.map f) (funext fun s => (writeSection_succ i s).symm)
    rw [← sections_iff (l := {}) (Or.inl rfl) (hcells ▸ hsecs), List.mapIdx_cons, List.flatten_cons, hmap, List.flatMap_def]
    rfl

end Sections

/-! ### The groups of a reading are its sections -/

/-- The first group keeps its name. -/
lemma head_foldl_addEvent (g : Group) (gs : List Group) (es : List Event) :
    ∃ g' gs', es.foldl addEvent (g :: gs) = g' :: gs' ∧ g'.1 = g.1 := by
  induction es generalizing g gs with
  | nil => exact ⟨g, gs, rfl, rfl⟩
  | cons e es ih =>
    cases e with
    | header name => exact ih g (gs ++ [(name, [])])
    | error message => exact ih g gs
    | entry key value =>
      cases gs with
      | nil => exact ih (g.1, g.2 ++ [(key, value)]) []
      | cons g' gs => exact ih g (addEntry (key, value) (g' :: gs))

/-- Without an error, and with a header in front, the groups say what was read. -/
lemma flatMap_groups {es : List Event} (hm : messages es = []) (hh : ∀ e ∈ es.head?, ∃ name, e = .header name) :
    (groups es).flatMap sectionEvents = es := by
  induction es using List.reverseRecOn with
  | nil => rfl
  | append_singleton es e ih =>
    obtain ⟨hm1, hm2⟩ := List.append_eq_nil_iff.1 ((messages_append es [e]).symm.trans hm)
    have hgroups : groups (es ++ [e]) = addEvent (groups es) e := by simp [groups]
    rw [hgroups]
    cases es with
    | nil =>
      obtain ⟨name, rfl⟩ := hh e rfl
      rfl
    | cons e₁ es =>
      have hes := ih hm1 hh
      cases e with
      | header name =>
        rw [addEvent, List.flatMap_append, hes]
        rfl
      | error message => cases hm2
      | entry key value =>
        rcases List.eq_nil_or_concat' (groups (e₁ :: es)) with hnil | ⟨gs, g, hg⟩
        · rw [hnil] at hes
          cases hes
        · rw [hg, List.flatMap_append] at hes
          rw [addEvent, hg, addEntry_concat, List.flatMap_append, ← hes]
          simp [sectionEvents]

/-- A text written for a table starts with a header where its groups are those of the table. -/
lemma events_of_groups {t : IniTable} (hm : messages (events (iniTableWrite t)) = [])
    (hg : groups (events (iniTableWrite t)) = t.contents) :
    events (iniTableWrite t) = t.contents.flatMap sectionEvents := by
  rw [← hg]
  refine (flatMap_groups hm fun e he => ?_).symm
  cases hcells : t.sections.cells with
  | nil =>
    rw [iniTableWrite, hcells] at he
    cases he
  | cons sec secs =>
    have hwrite : ∃ s, iniTableWrite t = LBRACKET :: sec.name.val ++ [RBRACKET, LF] ++ s := by
      refine ⟨sec.entries.cells.flatMap writeEntry ++ (secs.mapIdx fun i => writeSection (i + 1)).flatten, ?_⟩
      rw [iniTableWrite, hcells, List.mapIdx_cons, List.flatten_cons]
      simp [writeSection]
    obtain ⟨s, hs⟩ := hwrite
    obtain ⟨es, hes⟩ := List.head?_eq_some_iff.1 he
    cases e with
    | header name => exact ⟨name, rfl⟩
    | error message =>
      rw [hes] at hm
      cases hm
    | entry key value =>
      -- then the first section has no name, and its header is read
      obtain ⟨g, gs, hfold, hname⟩ := head_foldl_addEvent (.ofBlock [], [(key, value)]) [] es
      have hcont : (sec :: secs).map IniSection.content = g :: gs := by
        rw [hes] at hg
        rw [← hcells, ← hfold]
        exact hg.symm
      have hsec : sec.name.val = [] := by
        have h1 : sec.name = g.1 := congrArg Prod.fst (List.cons.inj hcont).1
        rw [h1, hname]
        rfl
      have hline := header_line (l := {}) (n := sec.name) (Or.inl rfl) (by rw [hsec]; exact storedKey_nil)
        (by rw [hsec]; exact ⟨by simp, by simp⟩) s
      rw [hs, events, hline] at hes
      cases hes

/-- A section that ends in a comment, with an empty one behind it. -/
def commented : IniTable :=
  ⟨((GrowArray.new 10 IniSection).push growth_pos sections_grow ⟨.ofBlock (bytes "a"),
      ((GrowArray.new 10 IniEntry).push growth_pos entries_grow
          ⟨.ofBlock (bytes "k"), .ofBlock (bytes "v")⟩).push growth_pos (by decide)
        ⟨.ofBlock (bytes ";c"), .ofBlock []⟩⟩).push growth_pos (by decide)
    ⟨.ofBlock (bytes "b"), .new 10 IniEntry⟩⟩

/-- A comment with `#`, where one with `;` comes back. -/
def hashed : IniTable :=
  ⟨((GrowArray.new 10 IniSection).push growth_pos sections_grow ⟨.ofBlock (bytes "a"),
      (GrowArray.new 10 IniEntry).push growth_pos entries_grow
        ⟨.ofBlock (bytes "#c"), .ofBlock []⟩⟩).push growth_pos (by decide)
    ⟨.ofBlock (bytes "b"), .new 10 IniEntry⟩⟩

end Wrensong.Ini
