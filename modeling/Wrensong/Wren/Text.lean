import Wrensong.Wren.Primitive
import Wrensong.Wren.Reference
import Wrensong.Wren.Utf8

/-!
# Parts of strings

`calculateRange` turns the range of a subscript into indices, and `wrenNewStringFromRange` makes a string of the characters
that begin there. In a text, which is a string that holds UTF-8, these are the characters between two places
(`wrenNewStringFromRange_between`), or in any other order that the range goes (`wrenNewStringFromRange_text`).

`stringPlus` puts two strings together.
-/

namespace Wrensong.Wren

open Wrensong.Lib

/-- `calculateRange` behind the start, for an end that is inclusive. -/
def rangeEnd (length : UInt32) (start : ℕ) (value : ℤ) : Except String (ℕ × UInt32 × ℤ) :=
  if value < 0 ∨ length.toNat ≤ value then .error "Range end out of bounds."
  else .ok (start, .ofNat (toInt (.ofNat start - .ofNat value.toNat)).natAbs + 1, if start < value then 1 else -1)

/-- `calculateRange`: the start, the length and the step. -/
def calculateRange (range : ObjRange) (length : UInt32) : Except String (ℕ × UInt32 × ℤ) :=
  -- an empty range is allowed at the end
  if range.rangeFrom = length.toNat ∧ range.rangeTo = (if range.isInclusive then -1 else (length.toNat : ℚ)) then
    .ok (0, 0, 0)
  else do
    let start ← validateIndex (.num range.rangeFrom) length "Range start"
    let value ← validateInt (.num range.rangeTo) "Range end"
    -- negative indices count from the end
    let value := if value < 0 then length.toNat + value else value
    if range.isInclusive then rangeEnd length start value
    else if value = start then .ok (start, 0, 0)
    else rangeEnd length start (value + if start ≤ value then -1 else 1)

/-- The indices that `wrenNewStringFromRange` looks at. -/
def rangeIndices (start : ℤ) (count : UInt32) (step : ℤ) : List UInt32 :=
  (List.range count.toNat).map fun i : ℕ => toUnsigned (start + i * step)

/-- A round of its first loop, which adds up the length. -/
def countChar (source : ObjString) (length : ℕ) (index : UInt32) : Option ℕ :=
  (source.value.read index.toNat).map fun b => length + wrenUtf8DecodeNumBytes b

/-- A round of its second loop, where `to` is the number of bytes that are written. -/
def copyChar (source : ObjString) (result : Block UInt8 × ℕ) (index : UInt32) : Option (Block UInt8 × ℕ) :=
  if toInt index < 0 then none
  else do
    let codePoint ← wrenUtf8Decode (source.value.drop index.toNat) (source.length - index)
    match codePoint with
    | none => some result
    | some codePoint => do
      let bytes ← wrenUtf8Encode codePoint
      let value ← result.1.store result.2 bytes
      some (value, result.2 + bytes.length)

/-- `wrenNewStringFromRange`. The length is an `int`. -/
def wrenNewStringFromRange (charSigned : Bool) (source : ObjString) (start : ℤ) (count : UInt32) (step : ℤ) :
    Option ObjString := do
  let length ← (rangeIndices start count step).foldlM (countChar source) 0
  if 2 ^ 31 ≤ length then none
  else do
    let (length, value) ← allocateString length
    let (value, _) ← (rangeIndices start count step).foldlM (copyChar source) (value, 0)
    let hash ← hashString charSigned length value
    pure ⟨length, hash, value⟩

/-- `string_plus`: `wrenStringFormat` with two strings. -/
def stringPlus (charSigned : Bool) (a b : ObjString) : Option ObjString := do
  let (length, value) ← allocateString (a.length.toNat + b.length.toNat)
  let bytes ← Block.first a.length.toNat a.value
  let value ← value.store 0 bytes
  let bytes ← Block.first b.length.toNat b.value
  let value ← value.store a.length.toNat bytes
  let hash ← hashString charSigned length value
  pure ⟨length, hash, value⟩

/-! ### The characters of a text -/

/-- The character that begins at an index. -/
def charAt : List ℕ → ℕ → Option ℕ
  | [], _ => none
  | c :: cs, i => if i = 0 then some c else if i < (word c).length then none else charAt cs (i - (word c).length)

/-- All code points are in range. -/
def CodePoints (cs : List ℕ) : Prop := ∀ c ∈ cs, c ≤ maxCodePoint

instance (cs : List ℕ) : Decidable (CodePoints cs) := inferInstanceAs (Decidable (∀ _ ∈ _, _))

section Chars

variable {c i : ℕ} {cs ds : List ℕ} {b : UInt8}

lemma CodePoints.tail (h : CodePoints (c :: cs)) : CodePoints cs := fun x hx => h x (List.mem_cons_of_mem _ hx)

lemma CodePoints.left (h : CodePoints (cs ++ ds)) : CodePoints cs := fun x hx => h x (List.mem_append_left _ hx)

lemma CodePoints.right (h : CodePoints (cs ++ ds)) : CodePoints ds := fun x hx => h x (List.mem_append_right _ hx)

lemma charAt_zero : charAt (c :: cs) 0 = some c := by simp [charAt]

/-- Behind the first character. -/
lemma charAt_cons_add (hc : c ≤ maxCodePoint) : charAt (c :: cs) ((word c).length + i) = charAt cs i := by
  have hpos := length_word_pos hc
  rw [charAt, if_neg (by omega), if_neg (by omega), Nat.add_sub_cancel_left]

lemma charAt_append_add (h : CodePoints cs) : charAt (cs ++ ds) ((utf8 cs).length + i) = charAt ds i := by
  induction cs with
  | nil => simp [utf8]
  | cons c cs ih =>
    rw [utf8_cons, List.length_append, Nat.add_assoc, List.cons_append, charAt_cons_add (h c List.mem_cons_self), ih h.tail]

lemma charAt_append_left (h : CodePoints cs) (hi : i < (utf8 cs).length) : charAt (cs ++ ds) i = charAt cs i := by
  induction cs generalizing i with
  | nil => exact absurd hi (Nat.not_lt_zero i)
  | cons c cs ih =>
    rw [utf8_cons, List.length_append] at hi
    rw [List.cons_append, charAt, charAt]
    split_ifs with h1 h2
    · rfl
    · rfl
    · exact ih h.tail (by omega)

lemma charAt_mem (h : charAt cs i = some c) : c ∈ cs := by
  induction cs generalizing i with
  | nil => cases h
  | cons d cs ih =>
    rw [charAt] at h
    split_ifs at h
    · cases h
      exact List.mem_cons_self
    · exact List.mem_cons_of_mem _ (ih h)

/-- What stands in a text: a character, or a byte that continues one. -/
lemma charAt_cases (h : CodePoints cs) (hi : i < (utf8 cs).length) :
    (∃ c, charAt cs i = some c ∧ word c <+: (utf8 cs).drop i) ∨
      (charAt cs i = none ∧ ∃ b, (utf8 cs)[i]? = some b ∧ Continues b) := by
  induction cs generalizing i with
  | nil => exact absurd hi (Nat.not_lt_zero i)
  | cons c cs ih =>
    obtain ⟨b, t, hw, -, ht, -⟩ := word_spec (h c List.mem_cons_self)
    rw [utf8_cons, List.length_append] at hi
    rw [utf8_cons, charAt]
    rcases Nat.eq_zero_or_pos i with rfl | hpos
    · exact Or.inl ⟨c, rfl, List.prefix_append _ _⟩
    · rw [if_neg (by omega)]
      by_cases hin : i < (word c).length
      · rw [if_pos hin]
        refine Or.inr ⟨rfl, (word c)[i], ?_, ?_⟩
        · rw [List.getElem?_append_left hin, List.getElem?_eq_getElem hin]
        · obtain ⟨j, rfl⟩ : ∃ j, i = j + 1 := ⟨i - 1, by omega⟩
          refine ht _ ?_
          simp only [hw, List.getElem_cons_succ]
          exact List.getElem_mem _
      · rw [if_neg hin, List.drop_append, List.drop_of_length_le (by omega), List.nil_append,
          List.getElem?_append_right (by omega)]
        exact ih h.tail (by omega)

lemma numBytes_of_continues (h : Continues b) : wrenUtf8DecodeNumBytes b = 0 := if_pos h

/-- A byte that continues a character begins none. -/
lemma decode_of_continues {bytes : Block UInt8} {length : UInt32} (h : Continues b) (hb : bytes.read 0 = some b) :
    wrenUtf8Decode bytes length = some none := by
  have hall : ∀ n < 256, Continues (.ofNat n) → ¬ UInt8.ofNat n ≤ 0x7f ∧ ¬ UInt8.ofNat n &&& 0xe0 = 0xc0 ∧
      ¬ UInt8.ofNat n &&& 0xf0 = 0xe0 ∧ ¬ UInt8.ofNat n &&& 0xf8 = 0xf0 := by decide +kernel
  have hcases := hall b.toNat b.toNat_lt
  rw [UInt8.ofNat_toNat] at hcases
  obtain ⟨h1, h2, h3, h4⟩ := hcases h
  rw [wrenUtf8Decode, hb, Option.bind_eq_bind, Option.bind_some, if_neg h1, if_neg h2, if_neg h3, if_neg h4]

/-! ### Characters between two places -/

/-- All indices of a text give its characters in order. -/
lemma filterMap_charAt (h : CodePoints cs) : (List.range (utf8 cs).length).filterMap (charAt cs) = cs := by
  induction cs with
  | nil => rfl
  | cons c cs ih =>
    have hc := h c List.mem_cons_self
    obtain ⟨k, hk⟩ : ∃ k, (word c).length = k + 1 := ⟨(word c).length - 1, by have := length_word_pos hc; omega⟩
    have hinside : ((List.range k).map Nat.succ).filterMap (charAt (c :: cs)) = [] := by
      refine List.filterMap_eq_nil_iff.2 fun i hi => ?_
      obtain ⟨j, hj, rfl⟩ := List.mem_map.1 hi
      have := List.mem_range.1 hj
      rw [charAt, if_neg (by omega), if_pos (by omega)]
    have hbehind : ((List.range (utf8 cs).length).map ((word c).length + ·)).filterMap (charAt (c :: cs)) = cs := by
      rw [List.filterMap_map]
      refine Eq.trans (List.filterMap_congr fun i _ => ?_) (ih h.tail)
      exact charAt_cons_add hc
    rw [utf8_cons, List.length_append, List.range_add, List.filterMap_append, hbehind, hk, List.range_succ_eq_map,
      List.filterMap_cons_some charAt_zero, hinside]
    rfl

lemma filterMap_between {cs1 cs2 cs3 : List ℕ} (h : CodePoints (cs1 ++ (cs2 ++ cs3))) :
    ((List.range (utf8 cs2).length).map ((utf8 cs1).length + ·)).filterMap (charAt (cs1 ++ (cs2 ++ cs3))) = cs2 := by
  rw [List.filterMap_map]
  refine Eq.trans (List.filterMap_congr fun i hi => ?_) (filterMap_charAt h.right.left)
  simp only [Function.comp]
  rw [charAt_append_add h.left, charAt_append_left h.right.left (List.mem_range.1 hi)]

end Chars

/-! ### New strings -/

section Strings

variable {charSigned : Bool} {source a b : ObjString} {cs ds : List ℕ} {x y : List UInt8} {l : List UInt32}

lemma allocateString_eq (n : ℕ) : ∃ v, allocateString n = some (.ofNat n, v) ∧ v.length = n + 1 := by
  obtain ⟨v, hv⟩ := (Block.store_isSome (b := .malloc (n + 1)) (i := n) (l := [(0 : UInt8)])).2 (by simp)
  refine ⟨v, ?_, (Block.length_store hv).trans Block.length_malloc⟩
  simp only [allocateString, hv, Option.bind_eq_bind, Option.bind_some, toUnsigned_toInt]
  rfl

/-- A block that is filled is a string with its hash. -/
lemma stores_of_starts (charSigned : Bool) {v : Block UInt8} (hv : v.Starts x) (hx : x.length < 2 ^ 32) :
    ∃ hash, hashString charSigned (.ofNat x.length) v = some hash ∧
      ObjString.Stores charSigned ⟨.ofNat x.length, hash, v⟩ x := by
  have hlen : (UInt32.ofNat x.length).toNat = x.length := UInt32.toNat_ofNat'.trans (Nat.mod_eq_of_lt hx)
  have hhash := hashString_eq charSigned hv hlen.le
  exact ⟨_, hhash, hlen, hv, hhash⟩

/-- The characters that begin at the indices. -/
def charsAt (cs : List ℕ) (l : List UInt32) : List ℕ := l.filterMap fun i => charAt cs i.toNat

lemma charsAt_cons_some {i : UInt32} {c : ℕ} (hc : charAt cs i.toNat = some c) : charsAt cs (i :: l) = c :: charsAt cs l :=
  List.filterMap_cons_some hc

lemma charsAt_cons_none {i : UInt32} (hc : charAt cs i.toNat = none) : charsAt cs (i :: l) = charsAt cs l :=
  List.filterMap_cons_none hc

lemma countChar_eq (hs : source.Stores charSigned (utf8 cs)) (h : CodePoints cs)
    (hl : ∀ i ∈ l, i.toNat < (utf8 cs).length) (n : ℕ) :
    l.foldlM (countChar source) n = some (n + (utf8 (charsAt cs l)).length) := by
  induction l generalizing n with
  | nil => rfl
  | cons i l ih =>
    have hi := hl i List.mem_cons_self
    have hrest : ∀ j ∈ l, j.toNat < (utf8 cs).length := fun j hj => hl j (List.mem_cons_of_mem _ hj)
    rw [List.foldlM_cons, countChar]
    rcases charAt_cases h hi with ⟨c, hc, hw⟩ | ⟨hc, b, hb, hcont⟩
    · obtain ⟨b, t, hwb, -, -, hn, -⟩ := word_spec (h c (charAt_mem hc))
      have hread : (utf8 cs)[i.toNat]? = some b := by
        obtain ⟨z, hz⟩ := hw
        have hzero : ((utf8 cs).drop i.toNat)[0]? = some b := by
          rw [← hz, hwb]
          rfl
        rwa [List.getElem?_drop, Nat.add_zero] at hzero
      rw [hs.starts.read hread, Option.map_some, Option.bind_eq_bind, Option.bind_some, ih hrest, hn,
        charsAt_cons_some hc, utf8_cons, List.length_append, Nat.add_assoc]
    · rw [hs.starts.read hb, Option.map_some, Option.bind_eq_bind, Option.bind_some, ih hrest, numBytes_of_continues hcont,
        charsAt_cons_none hc, Nat.add_zero]

lemma copyChar_eq (hs : source.Stores charSigned (utf8 cs)) (h : CodePoints cs) (hlt : (utf8 cs).length < 2 ^ 31)
    (hl : ∀ i ∈ l, i.toNat < (utf8 cs).length) {v : Block UInt8} (hv : v.Starts x)
    (hroom : x.length + (utf8 (charsAt cs l)).length ≤ v.length) :
    ∃ v', l.foldlM (copyChar source) (v, x.length) = some (v', x.length + (utf8 (charsAt cs l)).length) ∧
      v'.Starts (x ++ utf8 (charsAt cs l)) := by
  induction l generalizing v x with
  | nil => exact ⟨v, rfl, by simpa [charsAt, utf8] using hv⟩
  | cons i l ih =>
    have hi := hl i List.mem_cons_self
    have hrest : ∀ j ∈ l, j.toNat < (utf8 cs).length := fun j hj => hl j (List.mem_cons_of_mem _ hj)
    have hint : ¬ toInt i < 0 := by
      rw [toInt_of_lt (by omega)]
      omega
    have hsub : (source.length - i).toNat = (utf8 cs).length - i.toNat := by
      rw [UInt32.toNat_sub_of_le, hs.length_eq]
      rw [UInt32.le_iff_toNat_le, hs.length_eq]
      exact hi.le
    rw [List.foldlM_cons, copyChar, if_neg hint]
    rcases charAt_cases h hi with ⟨c, hc, hw⟩ | ⟨hc, b, hb, hcont⟩
    · have hcp := h c (charAt_mem hc)
      rw [charsAt_cons_some hc, utf8_cons, List.length_append] at hroom ⊢
      have hwlen := hw.length_le
      rw [List.length_drop] at hwlen
      have hdecode := wrenUtf8Decode_word hcp (hs.starts.drop.of_isPrefix hw) (hwlen.trans hsub.ge)
      obtain ⟨v1, hv1⟩ := (Block.store_isSome (b := v) (i := x.length) (l := word c)).2 (by omega)
      obtain ⟨v', hrun, hv'⟩ := ih hrest (hv.store hv1) (by
        rw [List.length_append, Block.length_store hv1]
        exact (Nat.add_assoc _ _ _).trans_le hroom)
      refine ⟨v', ?_, ?_⟩
      · rw [hdecode]
        simp only [Option.bind_eq_bind, Option.bind_some, wrenUtf8Encode_eq hcp, hv1]
        rw [← List.length_append, hrun, List.length_append, Nat.add_assoc]
      · rw [← List.append_assoc]
        exact hv'
    · rw [charsAt_cons_none hc] at hroom ⊢
      obtain ⟨v', hrun, hv'⟩ := ih hrest hv hroom
      have hzero : Block.read (source.value.drop i.toNat) 0 = some b := by
        refine hs.starts.drop.read ?_
        rwa [List.getElem?_drop, Nat.add_zero]
      refine ⟨v', ?_, hv'⟩
      rw [decode_of_continues hcont hzero]
      exact hrun

/-- **`wrenNewStringFromRange`** on a text makes a text of the characters that begin at the indices. -/
theorem wrenNewStringFromRange_text (hs : source.Stores charSigned (utf8 cs)) (h : CodePoints cs)
    (hlt : (utf8 cs).length < 2 ^ 31) {start step : ℤ} {count : UInt32}
    (hl : ∀ i ∈ rangeIndices start count step, i.toNat < (utf8 cs).length)
    (hout : (utf8 (charsAt cs (rangeIndices start count step))).length < 2 ^ 31) :
    ∃ r, wrenNewStringFromRange charSigned source start count step = some r ∧
      r.Stores charSigned (utf8 (charsAt cs (rangeIndices start count step))) := by
  obtain ⟨v, hv, hlen⟩ := allocateString_eq (utf8 (charsAt cs (rangeIndices start count step))).length
  obtain ⟨v', hrun, hv'⟩ := copyChar_eq hs h hlt hl (x := []) (Block.starts_nil (b := v)) (by
    rw [hlen, List.length_nil]
    omega)
  obtain ⟨hash, hhash, hstores⟩ := stores_of_starts charSigned hv' (by rw [List.nil_append]; omega)
  rw [List.nil_append] at hhash hstores
  refine ⟨_, ?_, hstores⟩
  rw [List.length_nil] at hrun
  unfold wrenNewStringFromRange
  rw [countChar_eq hs h hl, Option.bind_eq_bind, Option.bind_some, Nat.zero_add, if_neg (not_le.2 hout)]
  simp only [hv, hrun, hhash, Option.bind_eq_bind, Option.bind_some]
  rfl

/-! ### Subscripts with a range -/

/-- The indices go upwards, or there is at most one. -/
def Upwards (count : ℕ) (step : ℤ) : Prop := step = 1 ∨ count ≤ 1

lemma map_rangeIndices {start count : ℕ} {step : ℤ} (hup : Upwards count step) (hlt : start + count < 2 ^ 32) :
    (rangeIndices start (.ofNat count) step).map UInt32.toNat = (List.range count).map (start + ·) := by
  have hcount : (UInt32.ofNat count).toNat = count := UInt32.toNat_ofNat'.trans (Nat.mod_eq_of_lt (by omega))
  unfold rangeIndices
  rw [hcount, List.map_map]
  refine List.map_congr_left fun i hi => ?_
  have hi := List.mem_range.1 hi
  have hindex : (start : ℤ) + i * step = ((start + i : ℕ) : ℤ) := by
    rcases hup with rfl | h
    · push_cast
      ring
    · obtain rfl : i = 0 := by omega
      simp
  simp only [Function.comp, hindex]
  exact toUnsigned_natCast (by omega)

/-- **`wrenNewStringFromRange`** between two places of a text. -/
theorem wrenNewStringFromRange_between {cs1 cs2 cs3 : List ℕ} (hs : source.Stores charSigned (utf8 (cs1 ++ (cs2 ++ cs3))))
    (h : CodePoints (cs1 ++ (cs2 ++ cs3))) (hlt : (utf8 (cs1 ++ (cs2 ++ cs3))).length < 2 ^ 31) {step : ℤ}
    (hup : Upwards (utf8 cs2).length step) :
    ∃ r, wrenNewStringFromRange charSigned source (utf8 cs1).length (.ofNat (utf8 cs2).length) step = some r ∧
      r.Stores charSigned (utf8 cs2) := by
  have hlen : (utf8 cs1).length + ((utf8 cs2).length + (utf8 cs3).length) < 2 ^ 31 := by
    rwa [utf8_append, utf8_append, List.length_append, List.length_append] at hlt
  have hmap : (rangeIndices (utf8 cs1).length (.ofNat (utf8 cs2).length) step).map UInt32.toNat = _ :=
    map_rangeIndices hup (by omega)
  have hchars : charsAt (cs1 ++ (cs2 ++ cs3)) (rangeIndices (utf8 cs1).length (.ofNat (utf8 cs2).length) step) = cs2 := by
    have hcomp : ∀ l : List UInt32, charsAt (cs1 ++ (cs2 ++ cs3)) l =
        (l.map UInt32.toNat).filterMap (charAt (cs1 ++ (cs2 ++ cs3))) := fun l => by
      rw [List.filterMap_map]
      rfl
    rw [hcomp, hmap, filterMap_between h]
  have hin : ∀ i ∈ rangeIndices (utf8 cs1).length (.ofNat (utf8 cs2).length) step,
      i.toNat < (utf8 (cs1 ++ (cs2 ++ cs3))).length := by
    intro i hi
    have hmem := List.mem_map_of_mem (f := UInt32.toNat) hi
    rw [hmap] at hmem
    obtain ⟨j, hj, he⟩ := List.mem_map.1 hmem
    have := List.mem_range.1 hj
    rw [← he, utf8_append, utf8_append, List.length_append, List.length_append]
    omega
  obtain ⟨r, hr, hstores⟩ := wrenNewStringFromRange_text hs h hlt hin (by rw [hchars]; omega)
  rw [hchars] at hstores
  exact ⟨r, hr, hstores⟩

/-- The length of a range that goes upwards. -/
lemma natAbs_toInt_sub {a b : ℕ} (h : a ≤ b) (hb : b < 2 ^ 31) : (toInt (.ofNat a - .ofNat b)).natAbs = b - a := by
  have ha : (UInt32.ofNat a).toNat = a := UInt32.toNat_ofNat'.trans (Nat.mod_eq_of_lt (by omega))
  have hb' : (UInt32.ofNat b).toNat = b := UInt32.toNat_ofNat'.trans (Nat.mod_eq_of_lt (by omega))
  have hsub : (UInt32.ofNat a - .ofNat b).toNat = (2 ^ 32 - b + a) % 2 ^ 32 := by rw [UInt32.toNat_sub, ha, hb']
  rcases Nat.lt_or_eq_of_le h with h | rfl
  · have hwrap : (((2 ^ 32 - b + a) % 2 ^ 32 : ℕ) : ℤ) = -((b - a : ℕ) : ℤ) + (2 ^ 32 : ℕ) := by
      rw [Nat.mod_eq_of_lt (by omega)]
      omega
    unfold toInt
    rw [hsub, hwrap, Int.add_bmod_right, Int.bmod_eq_of_le (by omega) (by omega), Int.natAbs_neg, Int.natAbs_natCast]
  · have hzero : toInt 0 = 0 := by decide
    rw [UInt32.sub_self, Nat.sub_self, hzero]
    rfl

lemma rangeEnd_eq {length : UInt32} {start stop : ℕ} (hs : start ≤ stop) (hstop : stop < length.toNat)
    (hlt : length.toNat < 2 ^ 31) :
    ∃ step, rangeEnd length start stop = .ok (start, .ofNat (stop + 1 - start), step) ∧ Upwards (stop + 1 - start) step := by
  refine ⟨if (start : ℤ) < stop then 1 else -1, ?_, ?_⟩
  · unfold rangeEnd
    rw [if_neg (by omega), Int.toNat_natCast, natAbs_toInt_sub hs (by omega)]
    have hcount : UInt32.ofNat (stop - start) + 1 = .ofNat (stop + 1 - start) := by
      rw [show stop + 1 - start = stop - start + 1 by omega, UInt32.ofNat_add]
      rfl
    rw [hcount]
  · unfold Upwards
    split_ifs with h
    · exact Or.inl rfl
    · right
      omega

/-- `string[start...stop]` -/
lemma calculateRange_exclusive {length : UInt32} {start stop : ℕ} (hs : start ≤ stop) (hstop : stop ≤ length.toNat)
    (hstart : start < length.toNat) (hlt : length.toNat < 2 ^ 31) :
    ∃ step, calculateRange ⟨start, stop, false⟩ length = .ok (start, .ofNat (stop - start), step) ∧
      Upwards (stop - start) step := by
  have hne : ¬ ((start : ℚ) = length.toNat ∧ (stop : ℚ) = length.toNat) := fun h => by
    have := h.1
    norm_cast at this
    omega
  have hint := validateInt_intCast stop "Range end"
  rw [Int.cast_natCast] at hint
  unfold calculateRange
  have hneg : ¬ (stop : ℤ) < 0 := by omega
  simp only [Bool.false_eq_true, if_false, hne, validateIndex_natCast hstart, hint, bind, Except.bind, hneg]
  rcases Nat.lt_or_eq_of_le hs with hs | rfl
  · obtain ⟨step, he, hup⟩ := rangeEnd_eq (show start ≤ stop - 1 by omega) (by omega : stop - 1 < length.toNat) hlt
    have hpred : (stop : ℤ) + -1 = ((stop - 1 : ℕ) : ℤ) := by omega
    refine ⟨step, ?_, by rwa [show stop - start = stop - 1 + 1 - start by omega]⟩
    rw [if_neg (by omega), if_pos (by omega), hpred, he, show stop - 1 + 1 - start = stop - start by omega]
  · refine ⟨0, ?_, Or.inr (by omega)⟩
    rw [if_pos rfl, Nat.sub_self]
    rfl

/-- `string[start..-1]` -/
lemma calculateRange_rest {length : UInt32} {start : ℕ} (hstart : start < length.toNat) (hlt : length.toNat < 2 ^ 31) :
    ∃ step, calculateRange ⟨start, -1, true⟩ length = .ok (start, .ofNat (length.toNat - start), step) ∧
      Upwards (length.toNat - start) step := by
  have hne : ¬ ((start : ℚ) = length.toNat) := fun h => by
    norm_cast at h
    omega
  have hint := validateInt_intCast (-1) "Range end"
  obtain ⟨step, he, hup⟩ := rangeEnd_eq (show start ≤ length.toNat - 1 by omega) (by omega : _ < length.toNat) hlt
  have hpred : (length.toNat : ℤ) + -1 = ((length.toNat - 1 : ℕ) : ℤ) := by omega
  have hneg : (-1 : ℤ) < 0 := by decide
  refine ⟨step, ?_, by rwa [show length.toNat - start = length.toNat - 1 + 1 - start by omega]⟩
  unfold calculateRange
  push_cast at hint
  simp only [if_true, hne, false_and, if_false, validateIndex_natCast hstart, hint, bind, Except.bind, hneg]
  rw [hpred, he, show length.toNat - 1 + 1 - start = length.toNat - start by omega]

/-- **Concatenation.** -/
theorem stringPlus_stores (ha : a.Stores charSigned x) (hb : b.Stores charSigned y) (hlt : x.length + y.length < 2 ^ 32) :
    ∃ r, stringPlus charSigned a b = some r ∧ r.Stores charSigned (x ++ y) := by
  obtain ⟨v, hv, hlen⟩ := allocateString_eq (x.length + y.length)
  obtain ⟨v1, hv1⟩ := (Block.store_isSome (b := v) (i := 0) (l := x)).2 (by omega)
  have hs1 : v1.Starts x := Block.starts_nil.store hv1
  obtain ⟨v2, hv2⟩ := (Block.store_isSome (b := v1) (i := x.length) (l := y)).2 (by
    rw [Block.length_store hv1]
    omega)
  have hs2 : v2.Starts (x ++ y) := hs1.store hv2
  obtain ⟨hash, hhash, hstores⟩ := stores_of_starts charSigned hs2 (by rwa [List.length_append])
  rw [List.length_append] at hhash hstores
  refine ⟨_, ?_, hstores⟩
  unfold stringPlus
  rw [ha.length_eq, hb.length_eq, hv]
  simp only [Option.bind_eq_bind, Option.bind_some, ha.starts.first le_rfl, hb.starts.first le_rfl, List.take_length, hv1,
    hv2, hhash]
  rfl

end Strings

end Wrensong.Wren
