import Wrensong.Lib.Hoare
import Wrensong.Wren.Primitive

/-!
# Sorting

`sort` is a method of the library, a quicksort that exchanges the elements of a list in place. The comparer is a function of
the program: it can fail, and what it answers can depend on anything. `Answers` is what is known of it. Whatever it answers,
the elements stay the same, also where it fails (`sort_perm`), and if it answers an order, they are sorted (`sort_sorted`).
-/

namespace Wrensong.Wren

open Wrensong.Lib Prog

/-- Programs that work on the elements of a list, and on whatever else there is. -/
abbrev ListMethod (ρ α : Type) := Prog (List Value × ρ) String α

variable {ρ : Type}

/-- `list_subscript`, with a number. -/
def listSubscript (index : ℚ) : ListMethod ρ Value := do
  let s ← get
  let index ← check (validateIndex (.num index) (.ofNat s.1.length) "Subscript")
  lift s.1[index]?

/-- `list_subscriptSetter` -/
def listSubscriptSetter (index : ℚ) (value : Value) : ListMethod ρ Unit := do
  let s ← get
  let index ← check (validateIndex (.num index) (.ofNat s.1.length) "Subscript")
  update fun s => (s.1.set index value, s.2)

/-- `wrenIsFalsyValue` -/
def wrenIsFalsyValue (value : Value) : Bool := value = .bool false ∨ value = .null

/-- `range_iterate` for an iterator that is `null` or a number; there is no result at the end. -/
def rangeIterate (range : ObjRange) (iterator : Option ℚ) : Option ℚ :=
  if range.rangeFrom = range.rangeTo ∧ range.isInclusive = false then none
  else
    match iterator with
    | none => some range.rangeFrom
    | some iterator =>
      let next := if range.rangeFrom < range.rangeTo then iterator + 1 else iterator - 1
      let beyond := if range.rangeFrom < range.rangeTo then range.rangeTo < next else next < range.rangeTo
      if beyond then none
      else if range.isInclusive = false ∧ next = range.rangeTo then none
      else some next

/-- The three statements that exchange two elements. -/
def exchange (i j : ℚ) : ListMethod ρ Unit := do
  let t ← listSubscript i
  let x ← listSubscript j
  listSubscriptSetter i x
  listSubscriptSetter j t

section Code

variable (comparer : Value → Value → ListMethod ρ Value)

/-- The loop of `partition_`, for at most `n` rounds. -/
def partitionFrom (p : Value) (range : ObjRange) : ℕ → Option ℚ → ℚ → ListMethod ρ ℚ
  | 0, _, _ => lift none
  | n + 1, iterator, i =>
    match rangeIterate range iterator with
    | none => pure i
    | some j => do
      let x ← listSubscript j
      let answer ← comparer x p
      if wrenIsFalsyValue answer then partitionFrom p range n (some j) i
      else do
        exchange (i + 1) j
        partitionFrom p range n (some j) (i + 1)

/-- `partition_`, with at most `n` rounds of its loop. -/
def partition (n : ℕ) (low high : ℚ) : ListMethod ρ ℚ := do
  let p ← listSubscript high
  let i ← partitionFrom comparer p ⟨low, high - 1, true⟩ n none (low - 1)
  exchange (i + 1) high
  pure (i + 1)

/-- `quicksort_`, at most `n` calls deep. -/
def quicksort : ℕ → ℚ → ℚ → ListMethod ρ Unit
  | 0, _, _ => lift none
  | n + 1, low, high =>
    if low < high then do
      let p ← partition comparer (n + 1) low high
      quicksort n low (p - 1)
      quicksort n (p + 1) high
    else pure ()

/-- `sort` -/
def sort : ListMethod ρ Unit := do
  let s ← get
  quicksort comparer (s.1.length + 1) 0 (s.1.length - 1)

end Code

/-! ### The statements -/

section Statements

variable {E : String → List Value × ρ → Prop} {l : List Value} {i j : ℕ}

lemma toNat_ofNat_length (hlen : l.length < 2 ^ 32) : (UInt32.ofNat l.length).toNat = l.length :=
  UInt32.toNat_ofNat'.trans (Nat.mod_eq_of_lt hlen)

lemma listSubscript_triple (hlen : l.length < 2 ^ 32) {v : Value} (hi : l[i]? = some v) :
    Triple (fun s => s.1 = l) (listSubscript (i : ℚ) : ListMethod ρ Value) (fun w s => s.1 = l ∧ w = v) E := by
  refine .bind (Q := fun s s' => s'.1 = l ∧ s.1 = l) (.get fun s hs => ⟨hs, hs⟩) fun s => .of_and fun hs => ?_
  have hlt := (List.getElem?_eq_some_iff.1 hi).1
  have hindex : validateIndex (.num i) (.ofNat l.length) "Subscript" = .ok i :=
    validateIndex_natCast (by rwa [toNat_ofNat_length hlen]) _
  rw [hs]
  refine .bind (Q := fun k s => s.1 = l ∧ k = i) (.check hindex fun s hs => ⟨hs, rfl⟩) fun k => .of_and ?_
  rintro rfl
  exact .lift hi fun s hs => ⟨hs, rfl⟩

lemma listSubscriptSetter_triple (hlen : l.length < 2 ^ 32) (hi : i < l.length) (v : Value) :
    Triple (fun s => s.1 = l) (listSubscriptSetter (i : ℚ) v : ListMethod ρ Unit) (fun _ s => s.1 = l.set i v) E := by
  refine .bind (Q := fun s s' => s'.1 = l ∧ s.1 = l) (.get fun s hs => ⟨hs, hs⟩) fun s => .of_and fun hs => ?_
  have hindex : validateIndex (.num i) (.ofNat l.length) "Subscript" = .ok i :=
    validateIndex_natCast (by rwa [toNat_ofNat_length hlen]) _
  rw [hs]
  refine .bind (Q := fun k s => s.1 = l ∧ k = i) (.check hindex fun s hs => ⟨hs, rfl⟩) fun k => .of_and ?_
  rintro rfl
  exact .update fun s hs => by rw [hs]

lemma exchange_triple (hlen : l.length < 2 ^ 32) {v w : Value} (hi : l[i]? = some v) (hj : l[j]? = some w) :
    Triple (fun s => s.1 = l) (exchange (i : ℚ) (j : ℚ) : ListMethod ρ Unit) (fun _ s => s.1 = (l.set i w).set j v) E := by
  have hi' := (List.getElem?_eq_some_iff.1 hi).1
  have hj' := (List.getElem?_eq_some_iff.1 hj).1
  refine .bind (listSubscript_triple hlen hi) fun t => .of_and ?_
  rintro rfl
  refine .bind (listSubscript_triple hlen hj) fun x => .of_and ?_
  rintro rfl
  refine .bind (listSubscriptSetter_triple hlen hi' x) fun _ => ?_
  exact listSubscriptSetter_triple (by rwa [List.length_set]) (by rwa [List.length_set]) t

/-- An element in front of others is exchanged with one behind them. -/
lemma set_set_append (xs bs ys : List Value) (c : Value) :
    ∃ v bs', (xs ++ (bs ++ c :: ys))[xs.length]? = some v ∧ bs'.Perm bs ∧
      ((xs ++ (bs ++ c :: ys)).set xs.length c).set (xs.length + bs.length) v = xs ++ (c :: (bs' ++ ys)) := by
  cases bs with
  | nil => exact ⟨c, [], by simp, .nil, by simp⟩
  | cons b bs =>
    refine ⟨b, bs ++ [b], by simp, List.perm_append_singleton b bs, ?_⟩
    simp [List.append_assoc]

/-- The first index of a range that goes upwards. -/
lemma rangeIterate_null (low high : ℚ) : rangeIterate ⟨low, high, true⟩ none = some low := by simp [rangeIterate]

/-- The next index of a range with `n` of them. -/
lemma rangeIterate_num {low k n : ℕ} (hk : k < n) :
    rangeIterate ⟨low, (low : ℚ) + n - 1, true⟩ (some ((low + k : ℕ) : ℚ)) =
      if k + 1 = n then none else some ((low + (k + 1) : ℕ) : ℚ) := by
  have hup : (low : ℚ) < low + n - 1 ↔ 1 < n := by
    rw [← Nat.cast_lt (α := ℚ)]
    constructor <;> intro h <;> push_cast at h ⊢ <;> linarith
  have hk' : (k : ℚ) + 1 ≤ n := by exact_mod_cast hk
  unfold rangeIterate
  simp only [Bool.true_eq_false, and_false, if_false, hup]
  by_cases hone : 1 < n
  · by_cases he : k + 1 = n
    · have hend : (k : ℚ) + 1 = n := by exact_mod_cast he
      simp only [hone, if_true, he]
      rw [if_pos]
      push_cast
      linarith
    · have hlt : (k : ℚ) + 1 + 1 ≤ n := by
        have : k + 1 + 1 ≤ n := by omega
        exact_mod_cast this
      simp only [hone, if_true, he, if_false]
      rw [if_neg]
      · push_cast
        rw [if_neg (fun h => h.1), add_assoc]
      · push_cast
        linarith
  · obtain ⟨rfl, rfl⟩ : k = 0 ∧ n = 1 := by omega
    simp

end Statements

/-! ### Comparers -/

/-- What is known of a comparer for values with `D`: it comes to an end and leaves the list alone. `Yes` holds where it says
so, `No` where it does not, and `Fail` where it fails. -/
def Answers (comparer : Value → Value → ListMethod ρ Value) (D : Value → Prop) (Yes No Fail : Value → Value → Prop) : Prop :=
  ∀ l x y, D x → D y → Triple (fun s => s.1 = l) (comparer x y)
    (fun answer s => s.1 = l ∧ if wrenIsFalsyValue answer then No x y else Yes x y) fun _ s => s.1 = l ∧ Fail x y

/-- What follows on both sides of an element in the middle. -/
structure Sorts (Yes No S : Value → Value → Prop) : Prop where
  left : ∀ {x p}, Yes x p → S x p
  right : ∀ {y p}, No y p → S p y
  cross : ∀ {x y p}, Yes x p → No y p → S x y

/-- The elements behind `pre` and before `post` are those of `mid`. -/
def Between (pre mid post l : List Value) : Prop := ∃ mid', l = pre ++ (mid' ++ post) ∧ mid'.Perm mid

/-- Where a comparer fails, the elements are still there. -/
def Failed (Fail : Value → Value → Prop) (pre mid post : List Value) (s : List Value × ρ) : Prop :=
  Between pre mid post s.1 ∧ ∃ x ∈ mid, ∃ y ∈ mid, Fail x y

section Partition

variable {comparer : Value → Value → ListMethod ρ Value} {D : Value → Prop} {Yes No Fail S : Value → Value → Prop}
  {pre mid mid' post as bs cs l : List Value} {p : Value} {n : ℕ}

lemma Failed.perm {s : List Value × ρ} (h : Failed Fail pre mid post s) (hm : mid.Perm mid') :
    Failed Fail pre mid' post s := by
  obtain ⟨⟨m, hs, hp⟩, x, hx, y, hy, hf⟩ := h
  exact ⟨⟨m, hs, hp.trans hm⟩, x, hm.mem_iff.1 hx, y, hm.mem_iff.1 hy, hf⟩

/-- The list in the loop of `partition_`: the elements with a yes, those with a no, those that are left, and the last one. -/
def loopList (pre as bs cs : List Value) (p : Value) (post : List Value) : List Value :=
  pre ++ ((as ++ (bs ++ (cs ++ [p]))) ++ post)

lemma loopList_cons (pre as bs cs : List Value) (c p : Value) (post : List Value) :
    loopList pre as bs (c :: cs) p post = (pre ++ as) ++ (bs ++ c :: (cs ++ p :: post)) := by
  simp [loopList]

/-- The element joins those with a no. -/
lemma loopList_no (pre as bs cs : List Value) (c p : Value) (post : List Value) :
    (pre ++ as) ++ (bs ++ c :: (cs ++ p :: post)) = loopList pre as (bs ++ [c]) cs p post := by
  simp [loopList]

/-- It joins those with a yes. -/
lemma loopList_yes (pre as bs cs : List Value) (c p : Value) (post : List Value) :
    (pre ++ as) ++ (c :: (bs ++ (cs ++ p :: post))) = loopList pre (as ++ [c]) bs cs p post := by
  simp [loopList]

/-- Then one with a no goes behind the others, and the elements are the same in another order. -/
lemma perm_yes {bs' : List Value} (h : bs'.Perm bs) (as ys : List Value) (c : Value) :
    (as ++ [c] ++ (bs' ++ ys)).Perm (as ++ (bs ++ c :: ys)) := by
  rw [List.append_assoc]
  refine List.Perm.append_left as (List.Perm.trans ?_ List.perm_middle.symm)
  exact (h.append_right ys).cons c

/-- The next index of the loop. -/
lemma rangeIterate_loop {low total : ℕ} {cs : List Value} {c : Value} (hi : i + (c :: cs).length = total) :
    rangeIterate ⟨low, (low : ℚ) + total - 1, true⟩ (some ((low + i : ℕ) : ℚ)) =
      if cs = [] then none else some ((low + (i + 1) : ℕ) : ℚ) := by
  rw [List.length_cons] at hi
  rw [rangeIterate_num (by omega)]
  by_cases hcs : cs = []
  · rw [if_pos hcs, if_pos]
    rw [hcs, List.length_nil] at hi
    omega
  · have := List.length_pos_of_ne_nil hcs
    rw [if_neg hcs, if_neg (by omega)]

/-- **The loop of `partition_`.** The induction is on the rounds that are left. -/
lemma partitionFrom_triple (hcmp : Answers comparer D Yes No Fail) (has : ∀ x ∈ as, Yes x p) (hbs : ∀ y ∈ bs, No y p)
    (hlen : (loopList pre as bs cs p post).length < 2 ^ 32) {total : ℕ} (htotal : as.length + bs.length + cs.length = total)
    (hD : ∀ x ∈ cs ++ [p], D x) {iterator : Option ℚ}
    (hit : rangeIterate ⟨(pre.length : ℕ), (pre.length : ℚ) + total - 1, true⟩ iterator =
      if cs = [] then none else some ((pre.length + (as.length + bs.length) : ℕ) : ℚ)) (hn : cs.length < n) :
    Triple (fun s => s.1 = loopList pre as bs cs p post)
      (partitionFrom comparer p ⟨(pre.length : ℕ), (pre.length : ℚ) + total - 1, true⟩ n iterator
        ((pre.length : ℚ) + as.length - 1))
      (fun i s => ∃ as' bs', s.1 = loopList pre as' bs' [] p post ∧ (as' ++ bs').Perm (as ++ (bs ++ cs)) ∧
        (∀ x ∈ as', Yes x p) ∧ (∀ y ∈ bs', No y p) ∧ i = (pre.length : ℚ) + as'.length - 1)
      fun _ => Failed Fail pre (as ++ (bs ++ (cs ++ [p]))) post := by
  induction n generalizing as bs cs iterator with
  | zero => omega
  | succ n ih =>
    unfold partitionFrom
    rw [hit]
    cases cs with
    | nil =>
      rw [if_pos rfl]
      exact .pure fun s hs => ⟨as, bs, hs, by rw [List.append_nil], has, hbs, rfl⟩
    | cons c cs =>
      rw [if_neg (List.cons_ne_nil c cs)]
      dsimp only
      rw [loopList_cons] at hlen ⊢
      have hnext : rangeIterate ⟨(pre.length : ℕ), (pre.length : ℚ) + total - 1, true⟩ _ = _ := rangeIterate_loop htotal
      have hj : ((pre ++ as) ++ (bs ++ c :: (cs ++ p :: post)))[pre.length + (as.length + bs.length)]? = some c := by
        rw [← Nat.add_assoc, ← List.length_append, List.getElem?_append_right (by omega), Nat.add_sub_cancel_left,
          List.getElem?_append_right le_rfl, Nat.sub_self]
        rfl
      refine .bind (listSubscript_triple hlen hj) fun x => .of_and ?_
      rintro rfl
      have hfail : ∀ (e : String) (s : List Value × ρ), (s.1 = pre ++ as ++ (bs ++ x :: (cs ++ p :: post)) ∧ Fail x p) →
          Failed Fail pre (as ++ (bs ++ (x :: cs ++ [p]))) post s := fun _ s h =>
        ⟨⟨_, by rw [h.1]; simp, .refl _⟩, x, by simp, p, by simp, h.2⟩
      refine .bind ((hcmp _ x p (hD x (by simp)) (hD p (by simp))).error hfail) fun answer => .of_and fun hanswer => ?_
      have hn' : cs.length < n := by
        rw [List.length_cons] at hn
        omega
      have hD' : ∀ y ∈ cs ++ [p], D y := fun y hy => hD y (List.mem_cons_of_mem _ hy)
      by_cases hfalsy : wrenIsFalsyValue answer = true
      · rw [if_pos hfalsy] at hanswer ⊢
        have hbs' : ∀ y ∈ bs ++ [x], No y p := List.forall_mem_append.2 ⟨hbs, List.forall_mem_singleton.2 hanswer⟩
        have hlen' : (bs ++ [x]).length = bs.length + 1 := List.length_append
        rw [loopList_no] at hlen ⊢
        have hrest := ih has hbs' hlen (by rw [hlen', ← htotal, List.length_cons]; omega) hD' (by rw [hlen', hnext]; rfl) hn'
        have hperm : as ++ (bs ++ [x] ++ cs) = as ++ (bs ++ x :: cs) := by simp
        have herr : as ++ (bs ++ [x] ++ (cs ++ [p])) = as ++ (bs ++ (x :: cs ++ [p])) := by simp
        rwa [hperm, herr] at hrest
      · rw [if_neg hfalsy] at hanswer ⊢
        obtain ⟨v, bs', hv, hperm, hset⟩ := set_set_append (pre ++ as) bs (cs ++ p :: post) x
        have hi : (pre.length : ℚ) + as.length - 1 + 1 = ((pre ++ as).length : ℕ) := by
          rw [List.length_append]
          push_cast
          ring
        have hindex : (pre.length : ℚ) + (as ++ [x]).length - 1 = (pre.length : ℚ) + as.length - 1 + 1 := by
          rw [List.length_append, List.length_singleton]
          push_cast
          ring
        rw [← Nat.add_assoc, ← List.length_append] at hj
        refine .bind (Q := fun _ s => s.1 = loopList pre (as ++ [x]) bs' cs p post) ?_ fun _ => ?_
        · rw [hi, ← Nat.add_assoc, ← List.length_append]
          exact (exchange_triple hlen hv hj).imp (fun _ => id) (fun _ _ hs => by rw [hs, hset, loopList_yes]) fun _ _ => id
        have has' : ∀ y ∈ as ++ [x], Yes y p := List.forall_mem_append.2 ⟨has, List.forall_mem_singleton.2 hanswer⟩
        have hlen' : (as ++ [x]).length = as.length + 1 := List.length_append
        have hlen'' : (loopList pre (as ++ [x]) bs' cs p post).length < 2 ^ 32 := by
          rw [← loopList_yes, ← hset]
          simpa using hlen
        have hrest := ih has' (fun y hy => hbs y (hperm.mem_iff.1 hy)) hlen''
          (by rw [hlen', hperm.length_eq, ← htotal, List.length_cons]; omega) hD'
          (by rw [hlen', hperm.length_eq, hnext, Nat.add_right_comm]) hn'
        rw [hindex] at hrest
        refine hrest.imp (fun _ => id) ?_ fun _ s h => h.perm (perm_yes hperm as (cs ++ [p]) x)
        rintro i s ⟨as', bs'', hs, hp, hyes, hno, hi⟩
        exact ⟨as', bs'', hs, hp.trans (perm_yes hperm as cs x), hyes, hno, hi⟩

/-- **`partition_`** puts the last element where it belongs. -/
lemma partition_triple (hcmp : Answers comparer D Yes No Fail) {ms : List Value} (hms : ms ≠ []) (hD : ∀ x ∈ ms ++ [p], D x)
    (hlen : (pre ++ ((ms ++ [p]) ++ post)).length < 2 ^ 32) (hn : ms.length < n) :
    Triple (fun s => s.1 = pre ++ ((ms ++ [p]) ++ post))
      (partition comparer n (pre.length : ℕ) ((pre.length + ms.length : ℕ) : ℚ))
      (fun i s => ∃ as bs, s.1 = pre ++ ((as ++ p :: bs) ++ post) ∧ (as ++ p :: bs).Perm (ms ++ [p]) ∧
        (∀ x ∈ as, Yes x p) ∧ (∀ y ∈ bs, No y p) ∧ i = ((pre.length + as.length : ℕ) : ℚ))
      fun _ => Failed Fail pre (ms ++ [p]) post := by
  have hhigh : (pre ++ ((ms ++ [p]) ++ post))[pre.length + ms.length]? = some p := by simp
  refine .bind (listSubscript_triple hlen hhigh) fun x => .of_and ?_
  rintro rfl
  -- the loop begins with all elements left
  have hloop : Triple (fun s : List Value × ρ => s.1 = loopList pre [] [] ms x post)
      (partitionFrom comparer x ⟨(pre.length : ℕ), (pre.length : ℚ) + ms.length - 1, true⟩ n none
        ((pre.length : ℚ) + ([] : List Value).length - 1)) _ _ :=
    partitionFrom_triple hcmp (fun _ h => absurd h List.not_mem_nil) (fun _ h => absurd h List.not_mem_nil) hlen (by simp) hD
      (by rw [rangeIterate_null, if_neg hms]; rfl) hn
  have hrange : ((pre.length + ms.length : ℕ) : ℚ) - 1 = (pre.length : ℚ) + ms.length - 1 := by push_cast; ring
  have hstart : (pre.length : ℚ) + ([] : List Value).length - 1 = (pre.length : ℚ) - 1 := by simp
  rw [hstart] at hloop
  rw [hrange]
  refine .bind hloop fun i => .of_exists fun as => .of_exists fun bs => ?_
  intro s hs
  obtain ⟨hl, hperm, hyes, hno, rfl⟩ := hs
  simp only [List.nil_append] at hperm
  have hcount : as.length + bs.length = ms.length := by rw [← List.length_append, hperm.length_eq]
  obtain ⟨v, bs', hv, hperm', hset⟩ := set_set_append (pre ++ as) bs post x
  have hlist : loopList pre as bs [] x post = (pre ++ as) ++ (bs ++ x :: post) := by simp [loopList]
  have hj : ((pre ++ as) ++ (bs ++ x :: post))[(pre ++ as).length + bs.length]? = some x := by
    rw [List.getElem?_append_right (Nat.le_add_right _ _), Nat.add_sub_cancel_left, List.getElem?_append_right le_rfl,
      Nat.sub_self]
    rfl
  have hi : (pre.length : ℚ) + as.length - 1 + 1 = ((pre ++ as).length : ℕ) := by
    rw [List.length_append]
    push_cast
    ring
  have hhigh' : pre.length + ms.length = (pre ++ as).length + bs.length := by
    rw [List.length_append]
    omega
  have hlen' : ((pre ++ as) ++ (bs ++ x :: post)).length < 2 ^ 32 := by
    simp only [List.length_append, List.length_cons, List.length_nil] at hlen ⊢
    omega
  have hlast : Triple (fun s : List Value × ρ => s.1 = (pre ++ as) ++ (bs ++ x :: post))
      (do exchange ((pre.length : ℚ) + as.length - 1 + 1) ((pre.length + ms.length : ℕ) : ℚ)
          pure ((pre.length : ℚ) + as.length - 1 + 1))
      (fun i s => s.1 = (pre ++ as) ++ (x :: (bs' ++ post)) ∧ i = ((pre.length + as.length : ℕ) : ℚ))
      fun _ => Failed Fail pre (ms ++ [x]) post := by
    rw [hi, hhigh']
    refine .bind (exchange_triple hlen' hv hj) fun _ => .pure fun s hs => ⟨by rw [hs, hset], by rw [List.length_append]⟩
  refine hlast.imp (fun _ => id) ?_ (fun _ _ => id) s (hl.trans hlist)
  rintro i s ⟨hs, rfl⟩
  refine ⟨as, bs', by rw [hs]; simp, ?_, hyes, fun y hy => hno y (hperm'.mem_iff.1 hy), rfl⟩
  calc (as ++ x :: bs').Perm (x :: (as ++ bs')) := List.perm_middle
    List.Perm _ (x :: ms) := ((hperm'.append_left as).trans hperm).cons x
    List.Perm _ (ms ++ [x]) := (List.perm_append_singleton x ms).symm

/-- A failure in a part is one in the whole. -/
lemma Failed.widen {xs ys : List Value} {s : List Value × ρ} (h : Failed Fail (pre ++ xs) mid (ys ++ post) s) :
    Failed Fail pre (xs ++ (mid ++ ys)) post s := by
  obtain ⟨⟨m, hs, hp⟩, x, hx, y, hy, hf⟩ := h
  refine ⟨⟨xs ++ (m ++ ys), by rw [hs]; simp, (hp.append_right ys).append_left xs⟩, x, ?_, y, ?_, hf⟩ <;> simp [*]

/-- What is sorted on both sides of an element is sorted. -/
lemma Sorts.pairwise (hS : Sorts Yes No S) (has : as.Pairwise S) (hbs : bs.Pairwise S) (hyes : ∀ x ∈ as, Yes x p)
    (hno : ∀ y ∈ bs, No y p) : (as ++ p :: bs).Pairwise S := by
  refine List.pairwise_append.2 ⟨has, List.pairwise_cons.2 ⟨fun y hy => hS.right (hno y hy), hbs⟩, fun x hx y hy => ?_⟩
  rcases List.mem_cons.1 hy with rfl | hy
  · exact hS.left (hyes x hx)
  · exact hS.cross (hyes x hx) (hno y hy)

/-- **`quicksort_`.** The induction is on the depth that is left. -/
lemma quicksort_triple (hcmp : Answers comparer D Yes No Fail) (hS : Sorts Yes No S) (hD : ∀ x ∈ mid, D x)
    (hlen : (pre ++ (mid ++ post)).length < 2 ^ 32) (hn : mid.length < n) :
    Triple (fun s => s.1 = pre ++ (mid ++ post))
      (quicksort comparer n (pre.length : ℕ) ((pre.length : ℚ) + mid.length - 1))
      (fun _ s => ∃ mid', s.1 = pre ++ (mid' ++ post) ∧ mid'.Perm mid ∧ mid'.Pairwise S)
      fun _ => Failed Fail pre mid post := by
  induction n generalizing pre mid post with
  | zero => omega
  | succ n ih =>
    have hlt : ((pre.length : ℕ) : ℚ) < (pre.length : ℚ) + mid.length - 1 ↔ 1 < mid.length := by
      rw [← Nat.cast_lt (α := ℚ)]
      constructor <;> intro h <;> push_cast at h ⊢ <;> linarith
    refine .ite (fun h => ?_) fun h => .pure fun s hs => ⟨mid, hs, .refl mid, ?_⟩
    · rw [hlt] at h
      obtain ⟨ms, p, rfl⟩ : ∃ ms p, mid = ms ++ [p] :=
        ⟨mid.dropLast, mid.getLast (List.length_pos_iff.1 (by omega)), (List.dropLast_append_getLast _).symm⟩
      rw [List.length_append, List.length_singleton] at h hn
      have hhigh : (pre.length : ℚ) + (ms ++ [p]).length - 1 = ((pre.length + ms.length : ℕ) : ℚ) := by
        rw [List.length_append, List.length_singleton]
        push_cast
        ring
      rw [hhigh]
      refine .bind (partition_triple hcmp (List.length_pos_iff.1 (by omega)) hD hlen (by omega)) fun q => ?_
      rintro s ⟨as, bs, hs, hperm, hyes, hno, rfl⟩
      have hcount : as.length + (bs.length + 1) = ms.length + 1 := by
        have := hperm.length_eq
        rwa [List.length_append, List.length_append, List.length_cons, List.length_singleton] at this
      have hlen' : (pre ++ (as ++ (p :: bs ++ post))).length < 2 ^ 32 := by
        simp only [List.length_append, List.length_cons, List.length_nil] at hlen ⊢
        omega
      have hmid : ((pre.length + as.length : ℕ) : ℚ) - 1 = (pre.length : ℚ) + as.length - 1 := by push_cast; ring
      -- the elements in front
      have hD' : ∀ x ∈ as ++ p :: bs, D x := fun x hx => hD x (hperm.mem_iff.1 hx)
      have hleft := ih (fun x hx => hD' x (List.mem_append_left _ hx)) hlen' (by omega : as.length < n)
      rw [← hmid] at hleft
      have hfail : ∀ (e : String) (s : List Value × ρ), Failed Fail pre as (p :: bs ++ post) s →
          Failed Fail pre (ms ++ [p]) post s := fun _ s hf => by
        rw [← List.append_nil pre] at hf
        exact hf.widen.perm hperm
      refine (Triple.bind (hleft.error hfail) fun _ => ?_ : Triple (fun s : List Value × ρ => s.1 = _) _ _ _) s
        (hs.trans (congrArg _ (List.append_assoc ..)))
      rintro s ⟨as', hs, hperm', hsorted⟩
      -- the elements behind
      have hnext : ((pre.length + as.length : ℕ) : ℚ) + 1 = ((pre ++ (as' ++ [p])).length : ℕ) := by
        rw [List.length_append, List.length_append, hperm'.length_eq, List.length_singleton]
        push_cast
        ring
      have hend : ((pre.length + ms.length : ℕ) : ℚ) = ((pre ++ (as' ++ [p])).length : ℚ) + bs.length - 1 := by
        have hms : ms.length = as.length + bs.length := by omega
        rw [List.length_append, List.length_append, hperm'.length_eq, List.length_singleton, hms]
        push_cast
        ring
      have hlist : pre ++ (as' ++ (p :: bs ++ post)) = (pre ++ (as' ++ [p])) ++ (bs ++ post) := by simp
      have hlen'' : ((pre ++ (as' ++ [p])) ++ (bs ++ post)).length < 2 ^ 32 := by
        rw [← hlist]
        simp only [List.length_append, List.length_cons, hperm'.length_eq] at hlen' ⊢
        exact hlen'
      have hDbs : ∀ x ∈ bs, D x := fun x hx => hD' x (List.mem_append_right _ (List.mem_cons_of_mem p hx))
      have hright := ih hDbs hlen'' (by omega)
      rw [← hend, ← hnext] at hright
      refine hright.imp (fun _ => id) ?_ ?_ s (hs.trans hlist)
      · rintro - s ⟨bs', hs, hperm'', hsorted'⟩
        refine ⟨as' ++ p :: bs', by rw [hs]; simp, ?_, ?_⟩
        · exact ((hperm'.append (hperm''.cons p))).trans hperm
        · exact hS.pairwise hsorted hsorted' (fun x hx => hyes x (hperm'.mem_iff.1 hx))
            fun y hy => hno y (hperm''.mem_iff.1 hy)
      · intro _ s hf
        rw [← List.nil_append post] at hf
        have hwide := hf.widen
        rw [List.append_nil] at hwide
        refine hwide.perm ?_
        have hcons : as' ++ [p] ++ bs = as' ++ p :: bs := by simp
        rw [hcons]
        exact (hperm'.append_right (p :: bs)).trans hperm
    · rw [hlt] at h
      rcases mid with _ | ⟨x, _ | ⟨y, mid⟩⟩
      · exact .nil
      · exact List.pairwise_singleton S x
      · rw [List.length_cons, List.length_cons] at h
        omega

/-- **`sort`** -/
lemma sort_triple (hcmp : Answers comparer D Yes No Fail) (hS : Sorts Yes No S) (hD : ∀ x ∈ l, D x)
    (hlen : l.length < 2 ^ 32) :
    Triple (fun s => s.1 = l) (sort comparer) (fun _ s => s.1.Perm l ∧ s.1.Pairwise S)
      fun _ s => s.1.Perm l ∧ ∃ x ∈ l, ∃ y ∈ l, Fail x y := by
  refine .bind (Q := fun s s' => s'.1 = l ∧ s.1 = l) (.get fun s hs => ⟨hs, hs⟩) fun s => .of_and fun hs => ?_
  rw [hs]
  have hsort : Triple (fun s => s.1 = [] ++ (l ++ [])) (quicksort comparer (l.length + 1) _ _) _ _ :=
    quicksort_triple hcmp hS hD (by simpa using hlen) (Nat.lt_succ_self _)
  simp only [List.length_nil, Nat.cast_zero, zero_add, List.nil_append, List.append_nil] at hsort
  refine hsort.imp (fun _ => id) ?_ ?_
  · rintro - s ⟨mid, hs, hperm, hsorted⟩
    rw [hs]
    exact ⟨hperm, hsorted⟩
  · rintro - s ⟨⟨mid, hs, hperm⟩, hf⟩
    rw [List.nil_append, List.append_nil] at hs
    rw [hs]
    exact ⟨hperm, hf⟩

end Partition

/-! ### Orders -/

section Orders

variable {other : Value → Value → ListMethod ρ Value}

/-- The comparer of `sort()`, which is `low < high`. The method of a number is `num_lt`; `other` is that of other values. -/
def lessThan (other : Value → Value → ListMethod ρ Value) : Value → Value → ListMethod ρ Value
  | .num a, .num b => pure (.bool (a < b))
  | .num _, _ => throw "Right operand must be a number."
  | low, high => other low high

/-- The order of the numbers among the values. -/
def NumLt (x y : Value) : Prop := ∃ a b, x = .num a ∧ y = .num b ∧ a < b

lemma numLt_iff {a b : ℚ} : NumLt (.num a) (.num b) ↔ a < b := by simp [NumLt]

lemma NumLt.trans {x y z : Value} (h : NumLt x y) (h' : NumLt y z) : NumLt x z := by
  obtain ⟨a, b, rfl, rfl, hab⟩ := h
  obtain ⟨b', c, hb, rfl, hbc⟩ := h'
  cases hb
  exact numLt_iff.2 (hab.trans hbc)

lemma NumLt.asymm {x y : Value} (h : NumLt x y) : ¬ NumLt y x := by
  obtain ⟨a, b, rfl, rfl, hab⟩ := h
  rw [numLt_iff]
  exact lt_asymm hab

lemma lessThan_answers (other : Value → Value → ListMethod ρ Value) :
    Answers (lessThan other) (fun x => ∃ a, x = .num a) NumLt (fun x y => ¬ NumLt x y) fun _ _ => False := by
  rintro l - - ⟨a, rfl⟩ ⟨b, rfl⟩
  refine .pure fun s hs => ⟨hs, ?_⟩
  by_cases h : a < b <;> simp [h, wrenIsFalsyValue, numLt_iff]

end Orders

end Wrensong.Wren
