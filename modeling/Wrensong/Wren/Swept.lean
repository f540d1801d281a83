import Wrensong.Wren.Marked

/-!
# What the collector frees

The loop of `wrenCollectGarbage` takes the objects that are not dark out of the list. `collect_valid` is the whole
collection: it frees the objects that the roots do not lead to, each once, and the invariant holds for the others.

`Sweeping` is the invariant of the loop. The finalizer of a foreign object needs its class, which comes behind it in the
list, so it is not freed before.
-/

namespace Wrensong.Wren.Gc

open Wrensong.Lib

/-- A white object. -/
def Obj.whiten (obj : Obj) : Obj := { obj with isDark := false }

/-- The loop has looked at the objects in `pre` and kept them, and the ones in `rest` are still to come. -/
structure Sweeping (dark : Finset ℕ) (vm : WrenVM) (pre rest : List ℕ) : Prop where
  chain : Chain vm.heap (pre ++ rest) vm.first
  not_freed : ∀ a ∈ pre ++ rest, a ∉ vm.freed
  dark_iff : ∀ {a n}, a ∈ rest → vm.heap.get? a = some n → (n.value.isDark = true ↔ a ∈ dark)
  sorted : rest.Pairwise (· > ·)
  class_rest : ∀ {a n}, a ∈ rest → vm.heap.get? a = some n → n.value.contents = .foreign →
    ∃ c ∈ rest, c < a ∧ n.value.classObj = some c

section Sweep

variable {vm : WrenVM} {pre rest : List ℕ} {dark : Finset ℕ} {a : ℕ} {n : Node Obj}

namespace Sweeping

/-- The loop stands at the first object that it has not looked at. -/
lemma link_eq (h : Sweeping dark vm pre rest) : vm.link pre.getLast? = some rest.head? := by
  have hc := h.chain
  rcases List.eq_nil_or_concat' pre with rfl | ⟨pre, e, rfl⟩
  · exact congrArg some hc.head
  · rw [List.append_assoc] at hc
    obtain ⟨n, hn, hnext⟩ := hc.next_eq
    have hfree : e ∉ vm.freed := h.not_freed e (by simp)
    rw [List.getLast?_concat]
    simp [WrenVM.link, WrenVM.deref, hn, hnext, hfree]

lemma not_mem (h : Sweeping dark vm pre (a :: rest)) : a ∉ pre ++ rest := by
  have hnodup := h.chain.nodup
  rw [List.nodup_middle] at hnodup
  exact (List.nodup_cons.1 hnodup).1

/-- The class of a foreign object further back is further back too. -/
lemma class_tail (h : Sweeping dark vm pre (a :: rest)) {b : ℕ} {m : Node Obj} (hb : b ∈ rest) (hm : vm.heap.get? b = some m)
    (hf : m.value.contents = .foreign) : ∃ c ∈ rest, c < b ∧ m.value.classObj = some c := by
  obtain ⟨c, hc, hlt, he⟩ := h.class_rest (List.mem_cons_of_mem _ hb) hm hf
  have hab : a > b := (List.pairwise_cons.1 h.sorted).1 b hb
  refine ⟨c, (List.mem_cons.1 hc).resolve_left ?_, hlt, he⟩
  omega

/-- What the loop has still to look at, where the values further back are as before. -/
lemma tail (h : Sweeping dark vm pre (a :: rest)) {vm' : WrenVM} {pre' : List ℕ} (hc : Chain vm'.heap (pre' ++ rest) vm'.first)
    (hf : ∀ b ∈ pre' ++ rest, b ∉ vm'.freed)
    (hv : ∀ b ∈ rest, (vm'.heap.get? b).map Node.value = (vm.heap.get? b).map Node.value) : Sweeping dark vm' pre' rest := by
  have hold : ∀ {b m}, b ∈ rest → vm'.heap.get? b = some m → ∃ m', vm.heap.get? b = some m' ∧ m'.value = m.value := by
    intro b m hb hm
    have hsame := hv b hb
    rw [hm, Option.map_some] at hsame
    exact Option.map_eq_some_iff.1 hsame.symm
  refine ⟨hc, hf, fun {b m} hb hm => ?_, (List.pairwise_cons.1 h.sorted).2, fun {b m} hb hm hforeign => ?_⟩
  · obtain ⟨m', hm', he⟩ := hold hb hm
    rw [← he]
    exact h.dark_iff (List.mem_cons_of_mem _ hb) hm'
  · obtain ⟨m', hm', he⟩ := hold hb hm
    rw [← he] at hforeign ⊢
    exact h.class_tail hb hm' hforeign

/-- A dark object becomes white and the loop goes on behind it. -/
lemma whiten (h : Sweeping dark vm pre (a :: rest)) (hn : vm.heap.get? a = some n) :
    Sweeping dark { vm with heap := vm.heap.put a { n with value := n.value.whiten } } (pre ++ [a]) rest := by
  refine h.tail ?_ (fun b hb => h.not_freed b (by simpa using hb)) fun b hb => ?_
  · rw [List.append_assoc]
    refine h.chain.congr_next fun b _ => ?_
    change ((vm.heap.put a { n with value := n.value.whiten }).get? b).map Node.next = _
    rw [Heap.get?_put]
    split_ifs with e
    · subst e
      rw [hn]
      rfl
    · rfl
  · have hne : a ≠ b := fun e => h.not_mem (List.mem_append_right _ (e ▸ hb))
    change ((vm.heap.put a { n with value := n.value.whiten }).get? b).map Node.value = _
    rw [Heap.get?_put_ne hne]

/-- **A white object is taken out of the list and freed.** -/
lemma free (h : Sweeping dark vm pre (a :: rest)) (hn : vm.heap.get? a = some n) :
    ∃ h' f', (vm.setLink pre.getLast? n.next).wrenFreeObj a = some { vm with heap := h', first := f', freed := vm.freed ++ [a] } ∧
      Sweeping dark { vm with heap := h', first := f', freed := vm.freed ++ [a] } pre rest ∧
      h'.next = vm.heap.next ∧ ∀ b, (h'.get? b).map Node.value = (vm.heap.get? b).map Node.value := by
  obtain ⟨h', f', hset, hchain, hnext, hvalue⟩ : ∃ h' f', vm.setLink pre.getLast? n.next = { vm with heap := h', first := f' } ∧
      Chain h' (pre ++ rest) f' ∧ h'.next = vm.heap.next ∧
      ∀ b, (h'.get? b).map Node.value = (vm.heap.get? b).map Node.value := by
    have hc := h.chain
    rcases List.eq_nil_or_concat' pre with rfl | ⟨pre, e, rfl⟩
    · obtain ⟨-, n', hn', hrest⟩ := hc
      cases hn.symm.trans hn'
      exact ⟨vm.heap, n.next, rfl, hrest, rfl, fun _ => rfl⟩
    · rw [List.append_assoc] at hc
      rw [List.getLast?_concat, List.append_assoc]
      exact ⟨vm.heap.setNext e n.next, vm.first, rfl, hc.unlink hn, Heap.next_setNext, fun b => Heap.value_setNext⟩
  have hkeep : ∀ b ∈ pre ++ rest, b ∉ vm.freed ++ [a] := fun b hb => by
    have hold : b ∉ vm.freed := h.not_freed b (by rcases List.mem_append.1 hb with hb | hb <;> simp [hb])
    have hne : b ≠ a := fun e => h.not_mem (e ▸ hb)
    simp [hold, hne]
  refine ⟨h', f', ?_, h.tail hchain hkeep fun b _ => hvalue b, hnext, hvalue⟩
  -- the object is still there, and so is its class
  have hva := hvalue a
  rw [hn, Option.map_some] at hva
  obtain ⟨n', hn', he⟩ := Option.map_eq_some_iff.1 hva
  have hderef : ∀ b, b ∉ vm.freed → ({ vm with heap := h', first := f' } : WrenVM).deref b = h'.get? b := fun b hb => if_neg hb
  rw [hset, WrenVM.wrenFreeObj, hderef a (h.not_freed a (by simp)), hn', Option.bind_eq_bind, Option.bind_some, he]
  by_cases hf : n.value.contents = .foreign
  · obtain ⟨c, hc, -, hclass⟩ := h.class_rest List.mem_cons_self hn hf
    have hcrest : c ∈ pre ++ a :: rest := List.mem_append_right _ hc
    obtain ⟨m, hm⟩ := h.chain.get? hcrest
    have hvc := hvalue c
    rw [hm, Option.map_some] at hvc
    obtain ⟨m', hm', -⟩ := Option.map_eq_some_iff.1 hvc
    rw [if_pos hf, hclass, Option.bind_some, hderef c (h.not_freed c hcrest), hm', Option.map_some]
  · rw [if_neg hf]

end Sweeping

/-- **The sweep.** The induction is on the objects that the loop has not looked at. -/
lemma sweepFrom_spec {k : ℕ} (h : Sweeping dark vm pre rest) (hk : rest.length < k) :
    ∃ h' f', WrenVM.sweepFrom k vm pre.getLast? =
        some { vm with heap := h', first := f', freed := vm.freed ++ rest.filter (· ∉ dark) } ∧
      Chain h' (pre ++ rest.filter (· ∈ dark)) f' ∧ h'.next = vm.heap.next ∧
      ∀ b, (h'.get? b).map Node.value =
        (vm.heap.get? b).map fun n => if b ∈ rest ∧ b ∈ dark then n.value.whiten else n.value := by
  obtain ⟨k, rfl⟩ : ∃ j, k = j + 1 := ⟨k - 1, by omega⟩
  induction rest generalizing vm pre k with
  | nil =>
    refine ⟨vm.heap, vm.first, ?_, h.chain, rfl, by simp⟩
    unfold WrenVM.sweepFrom
    rw [h.link_eq]
    simp
  | cons a rest ih =>
    rw [List.length_cons] at hk
    obtain ⟨k, rfl⟩ : ∃ j, k = j + 1 := ⟨k - 1, by omega⟩
    have hmem : a ∈ pre ++ a :: rest := by simp
    obtain ⟨n, hn⟩ := h.chain.get? hmem
    have hderef : vm.deref a = some n := by rw [WrenVM.deref, if_neg (h.not_freed a hmem), hn]
    have hrest : a ∉ rest := fun hm => h.not_mem (List.mem_append_right _ hm)
    rw [WrenVM.sweepFrom, h.link_eq]
    simp only [List.head?_cons, Option.bind_eq_bind, Option.bind_some, hderef]
    by_cases hd : a ∈ dark
    · rw [if_pos ((h.dark_iff List.mem_cons_self hn).2 hd)]
      obtain ⟨h', f', hrun, hchain, hnext, hvalue⟩ := ih (h.whiten hn) k (by omega)
      rw [List.getLast?_concat] at hrun
      refine ⟨h', f', ?_, ?_, hnext.trans (Heap.next_put _), fun b => ?_⟩
      · rw [List.filter_cons_of_neg (by simpa using hd)]
        exact hrun
      · rw [List.filter_cons_of_pos (by simpa using hd)]
        simpa using hchain
      · rw [hvalue]
        change ((vm.heap.put a { n with value := n.value.whiten }).get? b).map _ = _
        rw [Heap.get?_put]
        rcases eq_or_ne a b with rfl | hne
        · simp [hn, hrest, hd]
        · simp [hne, hne.symm]
    · rw [if_neg (by rw [h.dark_iff List.mem_cons_self hn]; exact hd)]
      obtain ⟨h1, f1, hfree, hs1, hnext1, hvalue1⟩ := h.free hn
      rw [hfree, Option.bind_some]
      obtain ⟨h', f', hrun, hchain, hnext, hvalue⟩ := ih hs1 k (by omega)
      refine ⟨h', f', ?_, ?_, hnext.trans hnext1, fun b => ?_⟩
      · rw [List.filter_cons_of_pos (by simpa using hd)]
        simpa using hrun
      · rw [List.filter_cons_of_neg (by simpa using hd)]
        exact hchain
      · have hcolor : ∀ h : Heap (Node Obj), (h.get? b).map (fun n => if b ∈ rest ∧ b ∈ dark then n.value.whiten else n.value) =
            ((h.get? b).map Node.value).map fun obj => if b ∈ a :: rest ∧ b ∈ dark then obj.whiten else obj := by
          intro h
          have hiff : b ∈ a :: rest ∧ b ∈ dark ↔ b ∈ rest ∧ b ∈ dark := by
            rw [List.mem_cons, or_and_right]
            exact or_iff_right fun e => hd (e.1 ▸ e.2)
          simp only [hiff, Option.map_map]
          rfl
        rw [hvalue]
        change (h1.get? b).map _ = _
        rw [hcolor, hvalue1, Option.map_map]
        rfl

end Sweep

/-! ### The whole collection -/

/-- The roots that lead to a foreign object lead to its class. The collector itself does not see to that. -/
def WrenVM.ClassesReached (vm : WrenVM) : Prop :=
  ∀ a n c, Reached vm.children vm.roots a → vm.heap.get? a = some n → n.value.contents = .foreign →
    n.value.classObj = some c → Reached vm.children vm.roots c

/-- **What a collection does.** It frees the objects that the roots do not lead to, none twice, and changes no object. -/
structure Collected (sizes : Sizes) (vm vm' : WrenVM) : Prop where
  next_eq : vm'.heap.next = vm.heap.next
  freed_prefix : vm.freed <+: vm'.freed
  freed_nodup : vm'.freed.Nodup
  freed_iff : ∀ a, a ∈ vm'.freed ↔ a < vm.heap.next ∧ ¬ Reached vm.children vm.roots a
  value_eq : ∀ a, (vm'.heap.get? a).map Node.value = (vm.heap.get? a).map Node.value
  rest_eq : vm' = { vm with
    heap := vm'.heap, first := vm'.first, freed := vm'.freed, bytesAllocated := vm'.bytesAllocated, nextGC := vm'.nextGC }
  bytes_eq : vm'.bytesAllocated = .ofNat
    (vm.tableSize sizes + ∑ a ∈ (Finset.range vm.heap.next).filter (· ∉ vm'.freed), vm.sizeAt sizes a)
  nextGC_eq : vm'.nextGC =
    max (vm'.bytesAllocated + vm'.bytesAllocated * vm.heapGrowthPercent / 100) vm.minHeapSize

section Collection

variable {vm vm' : WrenVM} {live : List ℕ} {sizes : Sizes} {s : Marks ℕ} {bytes a : ℕ}

lemma nextGC_plan : vm.plan.nextGC =
    max (vm.bytesAllocated + vm.bytesAllocated * vm.heapGrowthPercent / 100) vm.minHeapSize := by
  simp only [WrenVM.plan, max]
  split_ifs with hlt hle hle
  · rfl
  · exact absurd (UInt64.le_of_lt hlt) hle
  · exact UInt64.le_antisymm hle (UInt64.not_lt.1 hlt)
  · rfl

lemma children_congr (h : (vm'.heap.get? a).map Node.value = (vm.heap.get? a).map Node.value) :
    vm'.children a = vm.children a := by
  unfold WrenVM.children
  rcases h1 : vm'.heap.get? a with _ | m <;> rcases h2 : vm.heap.get? a with _ | n <;> rw [h1, h2] at h
  · cases h
  · cases h
  · exact congrArg (fun obj => obj.blackened.reduceOption) (Option.some.inj h)

/-- The loop begins with all objects. -/
lemma Valid.sweeping (h : Valid vm live) (s : Marks ℕ) (bytes : ℕ) : Sweeping s.dark (vm.colored s bytes) [] live := by
  have hget : ∀ {a n}, (paint s.dark vm.heap).get? a = some n → ∃ n', vm.heap.get? a = some n' ∧
      n.value.contents = n'.value.contents ∧ n.value.classObj = n'.value.classObj ∧ (n.value.isDark = true ↔ a ∈ s.dark) := by
    intro a n hn
    rw [get?_paint] at hn
    obtain ⟨n', hn', rfl⟩ := Option.map_eq_some_iff.1 hn
    refine ⟨n', hn', ?_⟩
    have hwhite := h.white hn'
    split_ifs with hd <;> simp [Obj.darken, hd, hwhite]
  refine ⟨?_, fun a ha => h.live_ok a ha, fun {a n} _ hn => ?_, h.sorted, fun {a n} ha hn hf => ?_⟩
  · refine h.chain.congr_next fun a _ => ?_
    change ((paint s.dark vm.heap).get? a).map Node.next = _
    rw [get?_paint, Option.map_map]
    congr 1
    funext n
    simp only [Function.comp]
    split_ifs <;> rfl
  · obtain ⟨n', -, -, -, hiff⟩ := hget hn
    exact hiff
  · obtain ⟨n', hn', hcontents, hclass, -⟩ := hget hn
    rw [hclass]
    exact h.class_live ha hn' (hcontents ▸ hf)

/-- The collector marks, takes the objects that are not dark out of the list, and ends. -/
lemma collect_run (sizes : Sizes) (h : Valid vm live) : ∃ (s : Marks ℕ) (h' : Heap (Node Obj)) (f' : Option ℕ), s.black.Nodup ∧
    (∀ a, a ∈ s.dark ↔ Reached vm.children vm.roots a) ∧ (∀ a, a ∈ s.dark ↔ a ∈ s.black) ∧ (∀ a ∈ s.dark, a ∈ live) ∧
    vm.wrenCollectGarbage sizes = some (WrenVM.plan { vm with
      heap := h', first := f', bytesAllocated := .ofNat (vm.tableSize sizes + vm.sizesOf sizes s.black),
      freed := vm.freed ++ live.filter (· ∉ s.dark) }) ∧
    Chain h' (live.filter (· ∈ s.dark)) f' ∧ h'.next = vm.heap.next ∧
    ∀ a, (h'.get? a).map Node.value = (vm.heap.get? a).map Node.value := by
  obtain ⟨s, hgray, hblack, hreach, hmem, hlive, hmark⟩ := mark_valid sizes h
  obtain ⟨vm1, hroots, hdrain⟩ := Option.bind_eq_some_iff.1 hmark
  obtain ⟨h', f', hsweep, hchain, hnext, hvalue⟩ := sweepFrom_spec (k := vm.heap.next + 1)
    (h.sweeping s (vm.tableSize sizes + vm.sizesOf sizes s.black)) (Nat.lt_succ_of_le h.chain.length_le)
  have hlen : (vm.colored s (vm.tableSize sizes + vm.sizesOf sizes s.black)).heap.next = vm.heap.next := next_paint
  refine ⟨s, h', f', hblack, hreach, hmem, hlive, ?_, hchain, hnext.trans hlen, fun a => ?_⟩
  · unfold WrenVM.wrenCollectGarbage
    simp only [hroots, hdrain, hlen, Option.bind_eq_bind, Option.bind_some]
    rw [List.getLast?_nil] at hsweep
    rw [hsweep]
    unfold WrenVM.colored
    simp only [hgray, ← h.gray_eq]
    rfl
  · -- an object that has become dark has become white again
    rw [hvalue]
    change ((paint s.dark vm.heap).get? a).map _ = _
    rw [get?_paint, Option.map_map]
    rcases hn : vm.heap.get? a with _ | n
    · rfl
    · have hwhite : n.value.darken.whiten = n.value := by
        have hw := h.white hn
        unfold Obj.darken Obj.whiten
        rw [← hw]
      by_cases hd : a ∈ s.dark
      · simp [hd, hlive a hd, hwhite]
      · simp [hd]

/-- **A collection**, where the machine is valid before. It is valid behind it, if no class is missing. -/
theorem collect_valid (sizes : Sizes) (h : Valid vm live) : ∃ vm' live', vm.wrenCollectGarbage sizes = some vm' ∧
    Collected sizes vm vm' ∧ (vm.ClassesReached → Valid vm' live') := by
  obtain ⟨s, h', f', hblack, hreach, hmem, hlive, hrun, hchain, hnext, hvalue⟩ := collect_run sizes h
  set vm' : WrenVM := WrenVM.plan { vm with
    heap := h', first := f', bytesAllocated := .ofNat (vm.tableSize sizes + vm.sizesOf sizes s.black),
    freed := vm.freed ++ live.filter (· ∉ s.dark) } with hvm'
  have hroots : vm'.roots = vm.roots := rfl
  have hchildren : ∀ a, vm'.children a = vm.children a := fun a => children_congr (hvalue a)
  have hfreed : ∀ a, a ∈ vm'.freed ↔ a ∈ vm.freed ∨ a ∈ live ∧ a ∉ s.dark := fun a => by
    change a ∈ vm.freed ++ live.filter (· ∉ s.dark) ↔ _
    simp
  have hlive' : ∀ {a}, a ∈ live.filter (· ∈ s.dark) ↔ a ∈ s.dark := fun {a} => by
    rw [List.mem_filter, decide_eq_true_iff]
    exact and_iff_right_of_imp (hlive a)
  have hold : ∀ {a n}, vm'.heap.get? a = some n → ∃ n', vm.heap.get? a = some n' ∧ n'.value = n.value := by
    intro a n hn
    have hv := hvalue a
    change h'.get? a = some n at hn
    rw [hn, Option.map_some] at hv
    exact Option.map_eq_some_iff.1 hv.symm
  have hiff : ∀ a, a ∈ vm'.freed ↔ a < vm.heap.next ∧ ¬ Reached vm.children vm.roots a := by
    intro a
    have hnot := h.live_ok a
    have := hlive a
    rw [hfreed, ← hreach, h.cells]
    tauto
  have hnodup : vm'.freed.Nodup := by
    refine List.nodup_append.2 ⟨h.freed_nodup, h.chain.nodup.filter _, ?_⟩
    rintro a ha _ hb rfl
    exact h.live_ok a (List.mem_of_mem_filter hb) ha
  refine ⟨vm', live.filter (· ∈ s.dark), hrun, ⟨hnext, List.prefix_append _ _, hnodup, hiff, hvalue, rfl, ?_, nextGC_plan⟩,
    fun hk => ⟨hchain, h.sorted.filter _, fun a => ?_, fun a ha => ?_, hnodup, fun {a n} hn => ?_, h.gray_eq,
      fun a ha b hb => ?_, fun b hb => ?_, fun {a n} ha hn hf => ?_⟩⟩
  · have hset : (Finset.range vm.heap.next).filter (· ∉ vm'.freed) = s.black.toFinset := by
      ext a
      rw [Finset.mem_filter, Finset.mem_range, List.mem_toFinset, ← hmem]
      rw [hiff, ← hreach]
      have hlt := fun hd => h.chain.lt_next (hlive a hd)
      tauto
    rw [hset, List.sum_toFinset _ hblack]
    rfl
  · have hlt := h.cells a
    have := hlive a
    change a < h'.next ↔ _
    rw [hnext, hlive', hfreed]
    tauto
  · rw [hfreed]
    have := hlive'.1 ha
    have := h.live_ok a (hlive a this)
    tauto
  · obtain ⟨n', hn', he⟩ := hold hn
    rw [← he]
    exact h.white hn'
  · rw [hlive', hreach] at ha ⊢
    rw [hchildren] at hb
    exact ha.child hb
  · rw [hlive', hreach]
    exact .root (hroots ▸ hb)
  · obtain ⟨n', hn', he⟩ := hold hn
    rw [← he] at hf ⊢
    rw [hlive'] at ha
    obtain ⟨c, -, hlt, hclass⟩ := h.class_live (hlive a ha) hn' hf
    exact ⟨c, hlive'.2 ((hreach c).2 (hk a n' c ((hreach a).1 ha) hn' hf hclass)), hlt, hclass⟩

namespace Collected

variable (h : Collected sizes vm vm')
include h

lemma children_eq : vm'.children = vm.children := funext fun a => children_congr (h.value_eq a)

lemma roots_eq : vm'.roots = vm.roots := by
  rw [h.rest_eq]
  rfl

lemma tableSize_eq : vm'.tableSize sizes = vm.tableSize sizes := by
  rw [h.rest_eq]
  rfl

lemma sizeAt_eq : vm'.sizeAt sizes a = vm.sizeAt sizes a := by
  have hv := h.value_eq a
  unfold WrenVM.sizeAt
  rcases h1 : vm'.heap.get? a with _ | m <;> rcases h2 : vm.heap.get? a with _ | n <;> rw [h1, h2] at hv
  · cases hv
  · cases hv
  · exact congrArg (Obj.size sizes) (Option.some.inj hv)

end Collected

end Collection

end Wrensong.Wren.Gc
