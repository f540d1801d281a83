import Wrensong.Lib.Marking
import Wrensong.Wren.Collect

/-!
# What the collector marks

`Valid vm live` is the invariant between collections: `live` is the list of the objects from `first` on, none of them is
freed or dark, and all pointers that the collector follows lead to one of them. The marking then is the one of
`Lib.Marking`: `vm.colored s bytes` is the machine with the objects in `s.dark` dark and those in `s.gray` on the stack, and
`mark_valid` says that the marking ends and that the dark objects are the ones the roots lead to.
-/

namespace Wrensong.Wren.Gc

open Wrensong.Lib

/-- A dark object. -/
def Obj.darken (obj : Obj) : Obj := { obj with isDark := true }

/-- The heap with some of its objects dark. -/
def paint (dark : Finset ℕ) (h : Heap (Node Obj)) : Heap (Node Obj) :=
  ⟨h.cells.mapIdx fun a n => if a ∈ dark then { n with value := n.value.darken } else n⟩

/-- The pointers that a compiler grays. -/
def Compiler.pointers (compiler : Compiler) : List (Option ℕ) :=
  [compiler.fn, compiler.constants, compiler.attributes] ++
    match compiler.enclosingClass with
    | none => []
    | some (fields, methodAttributes, classAttributes) => fields.data ++ [methodAttributes, classAttributes]

/-- The size of its symbol table. -/
def Compiler.tableSize (sizes : Sizes) (compiler : Compiler) : ℕ :=
  match compiler.enclosingClass with
  | none => 0
  | some (fields, _, _) => fields.capacity * sizes.pointer

namespace WrenVM

/-- The machine in the middle of the marking. -/
def colored (vm : WrenVM) (s : Marks ℕ) (bytes : ℕ) : WrenVM :=
  { vm with heap := paint s.dark vm.heap, gray := s.gray, bytesAllocated := .ofNat bytes }

/-- The objects that an object leads to. -/
def children (vm : WrenVM) (a : ℕ) : List ℕ :=
  match vm.heap.get? a with
  | some n => n.value.blackened.reduceOption
  | none => []

/-- What an object adds to the memory in use. -/
def sizeAt (sizes : Sizes) (vm : WrenVM) (a : ℕ) : ℕ :=
  match vm.heap.get? a with
  | some n => n.value.size sizes
  | none => 0

/-- The pointers that the compilers gray. -/
def compilerPointers (vm : WrenVM) : List (Option ℕ) :=
  match vm.compiler with
  | none => []
  | some (tokens, compilers) => tokens.map pointer ++ compilers.flatMap Compiler.pointers

/-- The roots of the collector. -/
def roots (vm : WrenVM) : List ℕ :=
  ([vm.modules] ++ vm.tempRoots ++ [vm.fiber] ++ vm.handles.map pointer ++ vm.compilerPointers ++
    vm.methodNames.data).reduceOption

/-- The memory of the symbol tables of the compilers. -/
def compilerTables (sizes : Sizes) (vm : WrenVM) : ℕ :=
  match vm.compiler with
  | none => 0
  | some (_, compilers) => (compilers.map (Compiler.tableSize sizes)).sum

/-- The memory of the symbol tables outside the heap. -/
def tableSize (sizes : Sizes) (vm : WrenVM) : ℕ := vm.compilerTables sizes + vm.methodNames.capacity * sizes.pointer

end WrenVM

/-- The machine between two collections. The newest object is the first one, so the class of a foreign object comes behind
it. -/
structure Valid (vm : WrenVM) (live : List ℕ) : Prop where
  chain : Chain vm.heap live vm.first
  sorted : live.Pairwise (· > ·)
  cells : ∀ a, a < vm.heap.next ↔ a ∈ live ∨ a ∈ vm.freed
  live_ok : ∀ a ∈ live, a ∉ vm.freed
  freed_nodup : vm.freed.Nodup
  white : ∀ {a n}, vm.heap.get? a = some n → n.value.isDark = false
  gray_eq : vm.gray = []
  children_live : ∀ a ∈ live, ∀ b ∈ vm.children a, b ∈ live
  roots_live : ∀ b ∈ vm.roots, b ∈ live
  class_live : ∀ {a n}, a ∈ live → vm.heap.get? a = some n → n.value.contents = .foreign →
    ∃ c ∈ live, c < a ∧ n.value.classObj = some c

section Marked

variable {vm : WrenVM} {live : List ℕ} {sizes : Sizes} {s : Marks ℕ} {bytes a : ℕ} {n : Node Obj} {dark : Finset ℕ}

lemma get?_paint {h : Heap (Node Obj)} :
    (paint dark h).get? a = (h.get? a).map fun n => if a ∈ dark then { n with value := n.value.darken } else n := by
  simp [paint, Heap.get?, List.getElem?_mapIdx]

@[simp] lemma next_paint {h : Heap (Node Obj)} : (paint dark h).next = h.next := by simp [paint, Heap.next]

@[simp] lemma paint_empty {h : Heap (Node Obj)} : paint ∅ h = h := by
  refine Heap.ext_get? fun a => ?_
  rw [get?_paint]
  simp

/-- One object more becomes dark. -/
lemma put_paint {h : Heap (Node Obj)} (hn : h.get? a = some n) (ha : a ∉ dark) :
    (paint dark h).put a { n with value := n.value.darken } = paint (insert a dark) h := by
  refine Heap.ext_get? fun b => ?_
  rw [Heap.get?_put, get?_paint, get?_paint]
  rcases eq_or_ne a b with rfl | hne
  · simp [hn, ha]
  · rw [if_neg hne]
    simp [hne.symm]

/-- A live object in the middle of the marking. -/
lemma deref_colored (h : Valid vm live) (ha : a ∈ live) (hn : vm.heap.get? a = some n) :
    (vm.colored s bytes).deref a = some (if a ∈ s.dark then { n with value := n.value.darken } else n) := by
  change (if a ∈ vm.freed then none else (paint s.dark vm.heap).get? a) = _
  rw [if_neg (h.live_ok a ha), get?_paint, hn, Option.map_some]

/-- `wrenGrayObj` meets an object. -/
lemma wrenGrayObj_colored (h : Valid vm live) {p : Option ℕ} (hp : ∀ a ∈ p, a ∈ live) :
    (vm.colored s bytes).wrenGrayObj p = some (vm.colored (s.meetAll p.toList) bytes) := by
  cases p with
  | none => rfl
  | some a =>
    obtain ⟨n, hn⟩ := h.chain.get? (hp a rfl)
    simp only [WrenVM.wrenGrayObj, deref_colored h (hp a rfl) hn, Option.map_some]
    congr 1
    change _ = vm.colored (s.meet a) bytes
    unfold Marks.meet
    by_cases hd : a ∈ s.dark
    · simp [hd, Obj.darken]
    · have hput := put_paint hn hd
      simp only [hd, if_false, h.white hn, Bool.false_eq_true]
      unfold WrenVM.colored
      rw [← hput]
      rfl

lemma meetAll_append {xs ys : List ℕ} : s.meetAll (xs ++ ys) = (s.meetAll xs).meetAll ys := List.foldl_append

/-- `wrenGrayObj` meets one object after another. -/
lemma grayAll_colored (h : Valid vm live) {ps : List (Option ℕ)} (hps : ∀ a ∈ ps.reduceOption, a ∈ live) :
    (vm.colored s bytes).grayAll ps = some (vm.colored (s.meetAll ps.reduceOption) bytes) := by
  unfold WrenVM.grayAll
  induction ps generalizing s with
  | nil => rfl
  | cons p ps ih =>
    have hsplit : (p :: ps).reduceOption = p.toList ++ ps.reduceOption := by cases p <;> rfl
    rw [hsplit] at hps ⊢
    rw [List.foldlM_cons, wrenGrayObj_colored h fun a ha => hps a (List.mem_append_left _ (by simpa using ha))]
    simp only [Option.bind_eq_bind, Option.bind_some]
    rw [ih fun a ha => hps a (List.mem_append_right _ ha), meetAll_append]

lemma wrenBlackenSymbolTable_colored (h : Valid vm live) {table : SymbolTable}
    (ht : ∀ a ∈ table.data.reduceOption, a ∈ live) :
    (vm.colored s bytes).wrenBlackenSymbolTable sizes table =
      some (vm.colored (s.meetAll table.data.reduceOption) (bytes + table.capacity * sizes.pointer)) := by
  unfold WrenVM.wrenBlackenSymbolTable
  rw [grayAll_colored h ht, Option.map_some]
  congr 1
  unfold WrenVM.colored
  simp only [UInt64.ofNat_add]

lemma markOne_colored (h : Valid vm live) {c : Compiler} (hc : ∀ a ∈ c.pointers.reduceOption, a ∈ live) :
    (vm.colored s bytes).markOne sizes c =
      some (vm.colored (s.meetAll c.pointers.reduceOption) (bytes + c.tableSize sizes)) := by
  unfold WrenVM.markOne
  unfold Compiler.pointers at hc ⊢
  rw [List.reduceOption_append] at hc ⊢
  rw [grayAll_colored h fun a ha => hc a (List.mem_append_left _ ha)]
  simp only [Option.bind_eq_bind, Option.bind_some]
  have hrest := fun a ha => hc a (List.mem_append_right _ ha)
  rcases he : c.enclosingClass with _ | ⟨fields, methodAttributes, classAttributes⟩
  · simp [Compiler.tableSize, he, Marks.meetAll]
  · rw [he] at hrest
    simp only [List.reduceOption_append] at hrest ⊢
    rw [wrenBlackenSymbolTable_colored h fun a ha => hrest a (List.mem_append_left _ ha)]
    simp only [Option.bind_some]
    rw [grayAll_colored h fun a ha => hrest a (List.mem_append_right _ ha), meetAll_append, meetAll_append]
    simp [Compiler.tableSize, he]

lemma markAll_colored (h : Valid vm live) {cs : List Compiler}
    (hcs : ∀ a ∈ (cs.flatMap Compiler.pointers).reduceOption, a ∈ live) :
    cs.foldlM (fun vm c => vm.markOne sizes c) (vm.colored s bytes) =
      some (vm.colored (s.meetAll (cs.flatMap Compiler.pointers).reduceOption)
        (bytes + (cs.map (Compiler.tableSize sizes)).sum)) := by
  induction cs generalizing s bytes with
  | nil => rfl
  | cons c cs ih =>
    rw [List.flatMap_cons, List.reduceOption_append] at hcs ⊢
    rw [List.foldlM_cons, markOne_colored h fun a ha => hcs a (List.mem_append_left _ ha)]
    simp only [Option.bind_eq_bind, Option.bind_some]
    rw [ih fun a ha => hcs a (List.mem_append_right _ ha), meetAll_append, List.map_cons, List.sum_cons, Nat.add_assoc]

lemma markCompiler_colored (h : Valid vm live) (hp : ∀ a ∈ vm.compilerPointers.reduceOption, a ∈ live) :
    (vm.colored s bytes).markCompiler sizes =
      some (vm.colored (s.meetAll vm.compilerPointers.reduceOption) (bytes + vm.compilerTables sizes)) := by
  change (match vm.compiler with
    | none => some (vm.colored s bytes)
    | some (tokens, compilers) => (vm.colored s bytes).wrenMarkCompiler sizes tokens compilers) = _
  unfold WrenVM.compilerTables
  unfold WrenVM.compilerPointers at hp ⊢
  rcases hc : vm.compiler with _ | ⟨tokens, compilers⟩
  · rfl
  · rw [hc] at hp
    simp only [List.reduceOption_append] at hp ⊢
    unfold WrenVM.wrenMarkCompiler
    rw [grayAll_colored h fun a ha => hp a (List.mem_append_left _ ha)]
    simp only [Option.bind_eq_bind, Option.bind_some]
    rw [markAll_colored h fun a ha => hp a (List.mem_append_right _ ha), meetAll_append]

/-- **The roots are grayed.** -/
lemma grayRoots_colored (h : Valid vm live) :
    vm.grayRoots sizes = some (vm.colored (({} : Marks ℕ).meetAll vm.roots) (vm.tableSize sizes)) := by
  have hstart : ({ vm with bytesAllocated := 0 } : WrenVM) = vm.colored {} 0 := by
    unfold WrenVM.colored
    simp only [paint_empty, h.gray_eq]
    rfl
  have hone : ∀ p : Option ℕ, ([p] : List (Option ℕ)).reduceOption = p.toList := fun p => by cases p <;> rfl
  have hroots := h.roots_live
  unfold WrenVM.roots at hroots ⊢
  simp only [List.reduceOption_append, hone, List.mem_append] at hroots ⊢
  have h1 : (vm.colored {} 0).wrenGrayObj vm.modules = some (vm.colored (({} : Marks ℕ).meetAll vm.modules.toList) 0) :=
    wrenGrayObj_colored h fun a ha => hroots a (by simp_all)
  have h2 : ∀ s, (vm.colored s 0).grayAll vm.tempRoots = some (vm.colored (s.meetAll vm.tempRoots.reduceOption) 0) :=
    fun s => grayAll_colored h fun a ha => hroots a (by simp_all)
  have h3 : ∀ s, (vm.colored s 0).wrenGrayObj vm.fiber = some (vm.colored (s.meetAll vm.fiber.toList) 0) :=
    fun s => wrenGrayObj_colored h fun a ha => hroots a (by simp_all)
  have h4 : ∀ s, (vm.colored s 0).grayAll (vm.handles.map pointer) =
      some (vm.colored (s.meetAll (vm.handles.map pointer).reduceOption) 0) :=
    fun s => grayAll_colored h fun a ha => hroots a (by simp_all)
  have h5 : ∀ s, (vm.colored s 0).markCompiler sizes =
      some (vm.colored (s.meetAll vm.compilerPointers.reduceOption) (0 + vm.compilerTables sizes)) :=
    fun s => markCompiler_colored h fun a ha => hroots a (by simp_all)
  have h6 : ∀ s bytes, (vm.colored s bytes).wrenBlackenSymbolTable sizes vm.methodNames = some (vm.colored
      (s.meetAll vm.methodNames.data.reduceOption) (bytes + vm.methodNames.capacity * sizes.pointer)) :=
    fun s bytes => wrenBlackenSymbolTable_colored h fun a ha => hroots a (by simp_all)
  unfold WrenVM.grayRoots
  rw [hstart]
  simp only [Option.bind_eq_bind]
  rw [h1, Option.bind_some]
  change ((vm.colored _ 0).grayAll vm.tempRoots).bind _ = _
  rw [h2, Option.bind_some]
  change ((vm.colored _ 0).wrenGrayObj vm.fiber).bind _ = _
  rw [h3, Option.bind_some]
  change ((vm.colored _ 0).grayAll (vm.handles.map pointer)).bind _ = _
  rw [h4, Option.bind_some, h5, Option.bind_some]
  change (vm.colored _ _).wrenBlackenSymbolTable sizes vm.methodNames = _
  rw [h6]
  simp only [meetAll_append, WrenVM.tableSize, Nat.zero_add]

/-- **An object is taken off the stack.** -/
lemma blackenObject_colored (h : Valid vm live) {gray : List ℕ} (hg : s.gray = a :: gray) (ha : a ∈ live) :
    WrenVM.blackenObject sizes { vm.colored s bytes with gray := gray } a =
      some (vm.colored (s.blacken vm.children) (bytes + vm.sizeAt sizes a)) := by
  obtain ⟨n, hn⟩ := h.chain.get? ha
  have hkids : vm.children a = n.value.blackened.reduceOption := by rw [WrenVM.children, hn]
  have hsize : vm.sizeAt sizes a = n.value.size sizes := by rw [WrenVM.sizeAt, hn]
  -- what the object holds does not depend on its color
  have hvalue : (if a ∈ s.dark then { n with value := n.value.darken } else n).value.blackened = n.value.blackened ∧
      (if a ∈ s.dark then { n with value := n.value.darken } else n).value.size sizes = n.value.size sizes := by
    split_ifs <;> exact ⟨rfl, rfl⟩
  have hstart : ({ vm.colored s bytes with gray := gray } : WrenVM) =
      vm.colored { s with gray := gray, black := a :: s.black } bytes := rfl
  have hlive : ∀ b ∈ n.value.blackened.reduceOption, b ∈ live := fun b hb => h.children_live a ha b (hkids ▸ hb)
  unfold WrenVM.blackenObject
  rw [hstart, deref_colored h ha hn, Option.bind_eq_bind, Option.bind_some]
  simp only [hvalue.1, hvalue.2]
  rw [grayAll_colored h hlive, Option.bind_eq_bind, Option.bind_some]
  simp only [Marks.blacken, hg, hkids, hsize, Option.pure_def, WrenVM.colored, UInt64.ofNat_add]

/-- The sizes of the objects. -/
def WrenVM.sizesOf (sizes : Sizes) (vm : WrenVM) (l : List ℕ) : ℕ := (l.map (vm.sizeAt sizes)).sum

/-- The dark objects are live. -/
lemma dark_live (h : Valid vm live) (hm : Marking vm.children vm.roots s) (ha : a ∈ s.dark) : a ∈ live :=
  Reached.induction h.roots_live h.children_live (hm.reached a ha)

lemma wrenBlackenObjects_nil {k : ℕ} (hg : vm.gray = []) : WrenVM.wrenBlackenObjects sizes k vm = some vm := by
  unfold WrenVM.wrenBlackenObjects
  rw [hg]

lemma wrenBlackenObjects_cons {k : ℕ} {gray : List ℕ} (hg : vm.gray = a :: gray) :
    WrenVM.wrenBlackenObjects sizes (k + 1) vm =
      (WrenVM.blackenObject sizes { vm with gray := gray } a).bind (WrenVM.wrenBlackenObjects sizes k) := by
  rw [WrenVM.wrenBlackenObjects, hg]

/-- **The stack runs empty**, after as many objects as are not black yet at most. -/
lemma wrenBlackenObjects_colored (h : Valid vm live) {k : ℕ} (hm : Marking vm.children vm.roots s)
    (hk : vm.heap.next ≤ k + s.black.length) (hb : bytes = vm.tableSize sizes + vm.sizesOf sizes s.black) :
    ∃ s', Marking vm.children vm.roots s' ∧ s'.gray = [] ∧
      WrenVM.wrenBlackenObjects sizes k (vm.colored s bytes) =
        some (vm.colored s' (vm.tableSize sizes + vm.sizesOf sizes s'.black)) := by
  induction k generalizing s bytes with
  | zero =>
    have hcard := hm.card
    have hsub : s.dark ⊆ Finset.range vm.heap.next := fun a ha => Finset.mem_range.2 (h.chain.lt_next (dark_live h hm ha))
    have hle := Finset.card_le_card hsub
    rw [Finset.card_range] at hle
    have hg : s.gray = [] := List.eq_nil_of_length_eq_zero (by omega)
    exact ⟨s, hm, hg, by rw [wrenBlackenObjects_nil hg, hb]⟩
  | succ k ih =>
    rcases hg : s.gray with _ | ⟨a, gray⟩
    · exact ⟨s, hm, hg, by rw [wrenBlackenObjects_nil hg, hb]⟩
    · have ha : a ∈ s.dark := (hm.dark_iff_mem a).2 (Or.inl (by rw [hg]; exact List.mem_cons_self))
      have hblack : (s.blacken vm.children).black = a :: s.black := by
        rw [Marks.blacken, hg]
        exact Marks.black_meetAll
      have hbytes : bytes + vm.sizeAt sizes a = vm.tableSize sizes + vm.sizesOf sizes (s.blacken vm.children).black := by
        rw [hblack, hb, WrenVM.sizesOf, WrenVM.sizesOf, List.map_cons, List.sum_cons]
        omega
      obtain ⟨s', hm', hg', hrun⟩ := ih hm.blacken (by rw [hblack, List.length_cons]; omega) hbytes
      refine ⟨s', hm', hg', ?_⟩
      rw [wrenBlackenObjects_cons hg, blackenObject_colored h hg (dark_live h hm ha), Option.bind_some, hrun]

/-- **Marking ends**, and the dark objects are the ones that the roots lead to. The memory in use is that of the dark objects
and of the symbol tables. -/
lemma mark_valid (sizes : Sizes) (h : Valid vm live) : ∃ s, s.gray = [] ∧ s.black.Nodup ∧
    (∀ a, a ∈ s.dark ↔ Reached vm.children vm.roots a) ∧ (∀ a, a ∈ s.dark ↔ a ∈ s.black) ∧ (∀ a ∈ s.dark, a ∈ live) ∧
    (vm.grayRoots sizes).bind (fun vm => WrenVM.wrenBlackenObjects sizes vm.heap.next vm) =
      some (vm.colored s (vm.tableSize sizes + vm.sizesOf sizes s.black)) := by
  have hblack : (({} : Marks ℕ).meetAll vm.roots).black = [] := Marks.black_meetAll
  have hbytes : vm.tableSize sizes = vm.tableSize sizes + vm.sizesOf sizes (({} : Marks ℕ).meetAll vm.roots).black := by
    rw [hblack]
    rfl
  obtain ⟨s, hm, hg, hrun⟩ := wrenBlackenObjects_colored h (k := vm.heap.next) Marking.init (by omega) hbytes
  refine ⟨s, hg, ?_, fun a => hm.dark_iff hg, fun a => ?_, fun a => dark_live h hm, ?_⟩
  · simpa [hg] using hm.nodup
  · rw [hm.dark_iff_mem, hg]
    simp
  · rw [grayRoots_colored h, Option.bind_some]
    change WrenVM.wrenBlackenObjects sizes (paint _ vm.heap).next _ = _
    rw [next_paint, hrun]

end Marked

end Wrensong.Wren.Gc
