import Wrensong.Wren.Find
import Wrensong.Wren.Text

/-!
# Splitting, joining and replacing

`split`, `replace` and `join` are methods of the library that the machine brings along, written in its language over the
primitives for strings. The primitives work with indices of bytes. But in texts a delimiter occurs between characters only,
so `split` cuts the characters where those of the delimiter occur, from the front on. `join` puts the parts together again
(`join_split`), and `replace` puts another text between them (`replace_spec`).
-/

namespace Wrensong.Wren

open Wrensong.Lib

/-- `string_indexOf2` -/
def stringIndexOf (string search : ObjString) (start : ℚ) : Run ℤ := do
  let start ← checked (validateIndex (.num start) string.length "Start")
  let index ← defined (wrenStringFind string search (.ofNat start))
  pure (if index = 0xffffffff then -1 else toInt index)

/-- `string_subscript`, with a range. -/
def stringSubscript (charSigned : Bool) (string : ObjString) (range : ObjRange) : Run ObjString := do
  let (start, count, step) ← checked (calculateRange range string.length)
  defined (wrenNewStringFromRange charSigned string start count step)

/-- The end of `split`. -/
def splitEnd (charSigned : Bool) (string : ObjString) (last : ℤ) (result : List ObjString) : Run (List ObjString) :=
  if last < string.length.toNat then do
    let piece ← stringSubscript charSigned string ⟨last, -1, true⟩
    pure (result ++ [piece])
  else do
    let piece ← defined (wrenNewStringLength charSigned [])
    pure (result ++ [piece])

/-- The loop of `split`, for at most `n` rounds. -/
def splitFrom (charSigned : Bool) (string delimiter : ObjString) : ℕ → ℤ → List ObjString → Run (List ObjString)
  | 0, _, _ => defined none
  | n + 1, last, result =>
    if last < string.length.toNat then do
      let index ← stringIndexOf string delimiter last
      if index ≠ -1 then do
        let piece ← stringSubscript charSigned string ⟨last, index, false⟩
        splitFrom charSigned string delimiter n (index + delimiter.length.toNat) (result ++ [piece])
      else splitEnd charSigned string last result
    else splitEnd charSigned string last result

/-- `split` -/
def split (charSigned : Bool) (string delimiter : ObjString) : Run (List ObjString) :=
  if delimiter.length = 0 then throw "Delimiter must be a non-empty string."
  else splitFrom charSigned string delimiter (string.length.toNat + 1) 0 []

/-- The end of `replace`. -/
def replaceEnd (charSigned : Bool) (string : ObjString) (last : ℤ) (result : ObjString) : Run ObjString :=
  if last < string.length.toNat then do
    let piece ← stringSubscript charSigned string ⟨last, -1, true⟩
    defined (stringPlus charSigned result piece)
  else pure result

/-- The loop of `replace`, for at most `n` rounds. -/
def replaceFrom (charSigned : Bool) (string pattern by_ : ObjString) : ℕ → ℤ → ObjString → Run ObjString
  | 0, _, _ => defined none
  | n + 1, last, result =>
    if last < string.length.toNat then do
      let index ← stringIndexOf string pattern last
      if index ≠ -1 then do
        let piece ← stringSubscript charSigned string ⟨last, index, false⟩
        let result ← defined (stringPlus charSigned result piece)
        let result ← defined (stringPlus charSigned result by_)
        replaceFrom charSigned string pattern by_ n (index + pattern.length.toNat) result
      else replaceEnd charSigned string last result
    else replaceEnd charSigned string last result

/-- `replace` -/
def replace (charSigned : Bool) (string pattern by_ : ObjString) : Run ObjString :=
  if pattern.length = 0 then throw "From must be a non-empty string."
  else do
    let result ← defined (wrenNewStringLength charSigned [])
    replaceFrom charSigned string pattern by_ (string.length.toNat + 1) 0 result

/-- The part of `join` in front of an element. -/
def separated (charSigned : Bool) (sep : ObjString) (first : Bool) (result : ObjString) : Run ObjString :=
  if first then pure result else defined (stringPlus charSigned result sep)

/-- The loop of `join` over a list of strings. -/
def joinFrom (charSigned : Bool) (sep : ObjString) : Bool → ObjString → List ObjString → Run ObjString
  | _, result, [] => pure result
  | first, result, element :: rest => do
    let result ← separated charSigned sep first result
    let result ← defined (stringPlus charSigned result element)
    joinFrom charSigned sep false result rest

/-- `join` -/
def join (charSigned : Bool) (elements : List ObjString) (sep : ObjString) : Run ObjString := do
  let result ← defined (wrenNewStringLength charSigned [])
  joinFrom charSigned sep true result elements

/-! ### The places of a delimiter in a text -/

section Places

variable {charSigned : Bool} {string delimiter : ObjString} {cs cs1 cs2 ds ms rs : List ℕ} {i : ℕ}

lemma utf8_ne_nil (hds : CodePoints ds) (hne : ds ≠ []) : utf8 ds ≠ [] := by
  obtain ⟨b, t, hb, -⟩ := selfSync.flatMap_ne_nil hds hne
  unfold utf8
  rw [hb]
  exact List.cons_ne_nil b t

lemma length_ne_zero (hn : delimiter.Stores charSigned (utf8 ds)) (hds : CodePoints ds) (hne : ds ≠ []) :
    delimiter.length ≠ 0 := by
  intro e
  have hlen := hn.length_eq
  rw [e] at hlen
  exact utf8_ne_nil hds hne (List.eq_nil_of_length_eq_zero hlen.symm)

lemma length_utf8_append : (utf8 (cs1 ++ cs2)).length = (utf8 cs1).length + (utf8 cs2).length := by
  rw [utf8_append, List.length_append]

/-- A place among the characters is one among the bytes. -/
lemma occursAt_utf8 (h : OccursAt ds cs i) : OccursAt (utf8 ds) (utf8 cs) (utf8 (cs.take i)).length := by
  obtain ⟨t, ht⟩ := h
  have hcs : utf8 cs = utf8 (cs.take i) ++ (utf8 ds ++ utf8 t) := by
    rw [← utf8_append, ht, ← utf8_append, List.take_append_drop]
  rw [hcs]
  exact at_length_append

lemma infix_utf8 (h : ds <:+: cs) : utf8 ds <:+: utf8 cs := by
  obtain ⟨x, y, rfl⟩ := h
  rw [utf8_append, utf8_append]
  exact List.infix_append _ _ _

lemma length_utf8_take (h : CodePoints ms) (hi : i < ms.length) : (utf8 (ms.take i)).length < (utf8 ms).length := by
  have hms : utf8 ms = utf8 (ms.take i) ++ (word ms[i] ++ utf8 (ms.drop (i + 1))) := by
    rw [← utf8_cons, ← utf8_append, List.cons_getElem_drop_succ, List.take_append_drop]
  have hpos := length_word_pos (h ms[i] (List.getElem_mem hi))
  rw [hms, List.length_append, List.length_append]
  omega

/-- The text behind the first part, cut at the first place of the delimiter. -/
lemma firstAt_text (h : CodePoints (cs1 ++ cs2)) (hds : CodePoints ds) (hne : ds ≠ [])
    (hi : FirstAt (utf8 ds) (utf8 (cs1 ++ cs2)) (utf8 cs1).length i) :
    ∃ ms rs, cs2 = ms ++ (ds ++ rs) ∧ i = (utf8 cs1).length + (utf8 ms).length ∧
      ∀ j, j < ms.length → ¬ OccursAt ds (ms ++ (ds ++ rs)) j := by
  obtain ⟨hsplit, hlen⟩ := hi.split (utf8_ne_nil hds hne)
  obtain ⟨as, rs, he, has, -⟩ := selfSync.split h hds hne hsplit
  have hlen' : (utf8 as).length = i := (congrArg List.length has).trans hlen
  -- the first part ends before the place
  have hp : utf8 cs1 <+: utf8 as := by
    have hfront : utf8 cs1 <+: utf8 (cs1 ++ cs2) := ⟨utf8 cs2, utf8_append.symm⟩
    have hfront' : utf8 as <+: utf8 (cs1 ++ cs2) := ⟨utf8 (ds ++ rs), by rw [he, ← utf8_append]⟩
    exact List.prefix_of_prefix_length_le hfront hfront' (hlen'.symm ▸ hi.le)
  obtain ⟨ms, rfl⟩ := selfSync.isPrefix (fun c hc => h c (he ▸ List.mem_append_left _ hc)) h.left hp
  rw [List.append_assoc] at he
  obtain rfl := List.append_cancel_left he
  have hms : i = (utf8 cs1).length + (utf8 ms).length := by
    rw [← length_utf8_append]
    exact hlen'.symm
  refine ⟨ms, rs, rfl, hms, fun j hj hocc => ?_⟩
  -- an earlier place among the characters is an earlier one among the bytes
  have hbytes := occursAt_utf8 hocc
  rw [List.take_append_of_le_length hj.le] at hbytes
  have hearlier := length_utf8_take h.right.left hj
  refine hi.least ((utf8 cs1).length + (utf8 (ms.take j)).length) (Nat.le_add_right _ _) (by omega) ?_
  rwa [utf8_append, at_append (Nat.le_add_right _ _), Nat.add_sub_cancel_left]

/-- **`indexOf`**: the first place, or -1. -/
lemma stringIndexOf_found {s d : List UInt8} (hs : string.Stores charSigned s) (hn : delimiter.Stores charSigned d)
    (hff : (0xff : UInt8) ∉ s) (hff' : (0xff : UInt8) ∉ d) (hd : d ≠ []) (hlt : s.length < 2 ^ 31) (hlt' : d.length < 2 ^ 31)
    {n : ℕ} (hstart : n < s.length) :
    (∃ i, FirstAt d s n i ∧ stringIndexOf string delimiter (n : ℤ) = pure (i : ℤ)) ∨
      ((∀ j, n ≤ j → ¬ OccursAt d s j) ∧ stringIndexOf string delimiter (n : ℤ) = pure (-1)) := by
  have hnat : (UInt32.ofNat n).toNat = n := UInt32.toNat_ofNat'.trans (Nat.mod_eq_of_lt (by omega))
  have hindex : n < string.length.toNat := by
    rw [hs.length_eq]
    exact hstart
  unfold stringIndexOf
  rw [Int.cast_natCast, validateIndex_natCast hindex, checked_ok, pure_bind]
  have hfind := wrenStringFind_spec hs hn (by rw [hnat]; omega : (UInt32.ofNat n).toNat + _ < _)
  rcases hfind with ⟨r, hr, hfound⟩ | ⟨-, h | h⟩
  · rw [hnat] at hfound
    rw [hr, defined_some, pure_bind]
    rcases hfound with hfirst | ⟨rfl, hnone⟩
    · have hle := hfirst.occurs.le_length hd
      have hr31 : r.toNat < 2 ^ 31 := by omega
      have hne : r ≠ 0xffffffff := by
        rintro rfl
        exact absurd hr31 (by decide)
      refine Or.inl ⟨r.toNat, hfirst, ?_⟩
      rw [if_neg hne, toInt_of_lt hr31]
    · exact Or.inr ⟨hnone, rfl⟩
  · exact absurd h hff
  · exact absurd (List.mem_of_mem_dropLast h) hff'

/-- **`indexOf`** in a text finds the characters, and returns the index of the first byte of the first one. -/
theorem stringIndexOf_spec (hs : string.Stores charSigned (utf8 cs)) (hn : delimiter.Stores charSigned (utf8 ds))
    (h : CodePoints cs) (hds : CodePoints ds) (hne : ds ≠ []) (hlt : (utf8 cs).length < 2 ^ 31)
    (hlt' : (utf8 ds).length < 2 ^ 31) {n : ℕ} (hstart : n < (utf8 cs).length) :
    (∃ as rs, cs = as ++ (ds ++ rs) ∧ n ≤ (utf8 as).length ∧
        (∀ as' rs', cs = as' ++ (ds ++ rs') → n ≤ (utf8 as').length → (utf8 as).length ≤ (utf8 as').length) ∧
        stringIndexOf string delimiter (n : ℤ) = pure ((utf8 as).length : ℤ)) ∨
      ((∀ as rs, cs = as ++ (ds ++ rs) → (utf8 as).length < n) ∧ stringIndexOf string delimiter (n : ℤ) = pure (-1)) := by
  have hd := utf8_ne_nil hds hne
  -- where the characters stand, the bytes do
  have hat : ∀ as rs, cs = as ++ (ds ++ rs) → OccursAt (utf8 ds) (utf8 cs) (utf8 as).length := by
    rintro as rs rfl
    rw [utf8_append, utf8_append]
    exact at_length_append
  rcases stringIndexOf_found hs hn (ff_not_mem_utf8 h) (ff_not_mem_utf8 hds) hd hlt hlt' hstart with
    ⟨i, hfirst, hindex⟩ | ⟨hnone, hindex⟩
  · left
    obtain ⟨hsplit, hlen⟩ := hfirst.split hd
    obtain ⟨as, rs, he, has, -⟩ := selfSync.split h hds hne hsplit
    have hlen' : (utf8 as).length = i := (congrArg List.length has).trans hlen
    refine ⟨as, rs, he, hlen'.symm ▸ hfirst.le, fun as' rs' he' hn' => ?_, by rw [hindex, hlen']⟩
    rw [hlen']
    by_contra hlt
    exact hfirst.least _ hn' (not_le.1 hlt) (hat as' rs' he')
  · right
    refine ⟨fun as rs he => ?_, hindex⟩
    by_contra hle
    exact hnone _ (not_lt.1 hle) (hat as rs he)

/-- `"ß"` in `"aßcß"`, from the second byte of the first one on. -/
theorem stringIndexOf_spec_inside : ∃ string delimiter, wrenNewStringLength true (utf8 [97, 223, 99, 223]) = some string ∧
    wrenNewStringLength true (utf8 [223]) = some delimiter ∧ stringIndexOf string delimiter ((2 : ℕ) : ℤ) = pure 4 := by
  obtain ⟨string, hnew, hs⟩ := wrenNewStringLength_of_lt true (show (utf8 [97, 223, 99, 223]).length < 2 ^ 32 by decide)
  obtain ⟨delimiter, hnew', hn⟩ := wrenNewStringLength_of_lt true (show (utf8 [223]).length < 2 ^ 32 by decide)
  refine ⟨string, delimiter, hnew, hnew', ?_⟩
  rcases stringIndexOf_spec hs hn (by decide) (by decide) (by decide) (by decide) (by decide)
    (show 2 < (utf8 [97, 223, 99, 223]).length by decide) with ⟨as, rs, he, hle, hleast, hindex⟩ | ⟨hnone, -⟩
  · have hle' : (utf8 as).length ≤ 4 := hleast [97, 223, 99] [] rfl (by decide)
    rw [hindex]
    match as with
    | [] => exact absurd he (by simp)
    | [a] =>
      cases he
      exact absurd hle (by decide)
    | [a, b] => exact absurd he (by simp)
    | [a, b, c] =>
      cases he
      rfl
    | a :: b :: c :: d :: as => exact absurd (congrArg List.length he) (by simp)
  · exact absurd (hnone [97, 223, 99] [] rfl) (by decide)

/-- `indexOf` from a place on cuts the rest of the text. -/
lemma stringIndexOf_text (hs : string.Stores charSigned (utf8 (cs1 ++ cs2))) (hn : delimiter.Stores charSigned (utf8 ds))
    (h : CodePoints (cs1 ++ cs2)) (hds : CodePoints ds) (hne : ds ≠ []) (hlt : (utf8 (cs1 ++ cs2)).length < 2 ^ 31)
    (hlt' : (utf8 ds).length < 2 ^ 31) (hcs2 : utf8 cs2 ≠ []) :
    (∃ ms rs, cs2 = ms ++ (ds ++ rs) ∧ (∀ j, j < ms.length → ¬ OccursAt ds (ms ++ (ds ++ rs)) j) ∧
        stringIndexOf string delimiter ((utf8 cs1).length : ℤ) = pure (((utf8 cs1).length + (utf8 ms).length : ℕ) : ℤ)) ∨
      (¬ ds <:+: cs2 ∧ stringIndexOf string delimiter ((utf8 cs1).length : ℤ) = pure (-1)) := by
  have hpos := List.length_pos_of_ne_nil hcs2
  have hstart : (utf8 cs1).length < (utf8 (cs1 ++ cs2)).length := by
    rw [length_utf8_append]
    omega
  rcases stringIndexOf_found hs hn (ff_not_mem_utf8 h) (ff_not_mem_utf8 hds) (utf8_ne_nil hds hne) hlt hlt' hstart with
    ⟨i, hfirst, hindex⟩ | ⟨hnone, hindex⟩
  · obtain ⟨ms, rs, he, rfl, hleast⟩ := firstAt_text h hds hne hfirst
    exact Or.inl ⟨ms, rs, he, hleast, hindex⟩
  · refine Or.inr ⟨fun hin => ?_, hindex⟩
    obtain ⟨j, hj⟩ := exists_at_iff.2 (infix_utf8 hin)
    refine hnone ((utf8 cs1).length + j) (Nat.le_add_right _ _) ?_
    rwa [utf8_append, at_append (Nat.le_add_right _ _), Nat.add_sub_cancel_left]

/-- **The part in front of a place.** -/
lemma stringSubscript_between {ms rs : List ℕ} (hs : string.Stores charSigned (utf8 (cs1 ++ (ms ++ rs))))
    (h : CodePoints (cs1 ++ (ms ++ rs))) (hlt : (utf8 (cs1 ++ (ms ++ rs))).length < 2 ^ 31)
    (hpos : (utf8 cs1).length < (utf8 (cs1 ++ (ms ++ rs))).length) :
    ∃ r, stringSubscript charSigned string
        ⟨(((utf8 cs1).length : ℤ) : ℚ), (((utf8 cs1).length + (utf8 ms).length : ℕ) : ℤ), false⟩ = pure r ∧
      r.Stores charSigned (utf8 ms) := by
  have hlen : (utf8 (cs1 ++ (ms ++ rs))).length = (utf8 cs1).length + ((utf8 ms).length + (utf8 rs).length) := by
    rw [utf8_append, utf8_append, List.length_append, List.length_append]
  have hend : (utf8 cs1).length + (utf8 ms).length ≤ string.length.toNat := by
    rw [hs.length_eq]
    omega
  obtain ⟨step, hrange, hup⟩ := calculateRange_exclusive (Nat.le_add_right _ _) hend (hs.length_eq ▸ hpos)
    (hs.length_eq ▸ hlt)
  rw [Nat.add_sub_cancel_left] at hrange hup
  obtain ⟨r, hr, hstores⟩ := wrenNewStringFromRange_between hs h hlt hup
  refine ⟨r, ?_, hstores⟩
  unfold stringSubscript
  rw [Int.cast_natCast, Int.cast_natCast, hrange, checked_ok, pure_bind]
  exact congrArg defined hr

/-- **The rest of a text.** -/
lemma stringSubscript_rest (hs : string.Stores charSigned (utf8 (cs1 ++ cs2))) (h : CodePoints (cs1 ++ cs2))
    (hlt : (utf8 (cs1 ++ cs2)).length < 2 ^ 31) (hcs2 : utf8 cs2 ≠ []) :
    ∃ r, stringSubscript charSigned string ⟨(((utf8 cs1).length : ℤ) : ℚ), -1, true⟩ = pure r ∧
      r.Stores charSigned (utf8 cs2) := by
  have hpos := List.length_pos_of_ne_nil hcs2
  have hlen : (utf8 (cs1 ++ cs2)).length = _ := length_utf8_append
  have hstart : (utf8 cs1).length < string.length.toNat := by
    rw [hs.length_eq]
    omega
  obtain ⟨step, hrange, hup⟩ := calculateRange_rest hstart (hs.length_eq ▸ hlt)
  rw [hs.length_eq, hlen, Nat.add_sub_cancel_left] at hrange hup
  rw [← List.append_nil cs2] at hs h hlt
  obtain ⟨r, hr, hstores⟩ := wrenNewStringFromRange_between hs h hlt hup
  refine ⟨r, ?_, hstores⟩
  unfold stringSubscript
  rw [Int.cast_natCast, hrange, checked_ok, pure_bind]
  exact congrArg defined hr

end Places

/-! ### Splitting -/

section Split

variable {charSigned : Bool} {string delimiter : ObjString} {cs cs1 cs2 ds : List ℕ} {result : List ObjString}

lemma splitEnd_text (hs : string.Stores charSigned (utf8 (cs1 ++ cs2))) (h : CodePoints (cs1 ++ cs2))
    (hlt : (utf8 (cs1 ++ cs2)).length < 2 ^ 31) (result : List ObjString) :
    ∃ r, splitEnd charSigned string (utf8 cs1).length result = pure (result ++ [r]) ∧ r.Stores charSigned (utf8 cs2) := by
  unfold splitEnd
  rw [hs.length_eq, length_utf8_append]
  by_cases hcs2 : utf8 cs2 = []
  · rw [hcs2, List.length_nil, Nat.add_zero, if_neg (lt_irrefl _)]
    obtain ⟨r, hr, hstores⟩ := wrenNewStringLength_of_lt charSigned (show ([] : List UInt8).length < 2 ^ 32 by decide)
    exact ⟨r, by rw [hr]; rfl, hstores⟩
  · have hpos := List.length_pos_of_ne_nil hcs2
    obtain ⟨r, hr, hstores⟩ := stringSubscript_rest hs h hlt hcs2
    refine ⟨r, ?_, hstores⟩
    rw [if_pos (by omega), hr, pure_bind]

/-- Nothing stands in the end of a text. -/
lemma not_infix_of_utf8_eq_nil (hds : CodePoints ds) (hne : ds ≠ []) (hcs2 : utf8 cs2 = []) : ¬ ds <:+: cs2 := fun hin => by
  have hbytes := infix_utf8 hin
  rw [hcs2] at hbytes
  exact utf8_ne_nil hds hne (List.infix_nil.1 hbytes)

/-- Behind a place. -/
lemma behind_place {ms : List ℕ} (hn : delimiter.Stores charSigned (utf8 ds)) :
    (((utf8 cs1).length + (utf8 ms).length : ℕ) : ℤ) + (delimiter.length.toNat : ℤ) = (utf8 (cs1 ++ (ms ++ ds))).length := by
  rw [hn.length_eq, length_utf8_append, length_utf8_append]
  push_cast
  ring

/-- **The loop of `split`.** The induction is on the rounds that are left; `cs1` is what is behind. -/
lemma splitFrom_text (hs : string.Stores charSigned (utf8 (cs1 ++ cs2))) (hn : delimiter.Stores charSigned (utf8 ds))
    (h : CodePoints (cs1 ++ cs2)) (hds : CodePoints ds) (hne : ds ≠ []) (hlt : (utf8 (cs1 ++ cs2)).length < 2 ^ 31)
    (hlt' : (utf8 ds).length < 2 ^ 31) {n : ℕ} (hrounds : (utf8 cs2).length < n) (result : List ObjString) :
    ∃ rs parts, splitFrom charSigned string delimiter n (utf8 cs1).length result = pure (result ++ rs) ∧
      List.Forall₂ (fun r p => r.Stores charSigned (utf8 p)) rs parts ∧ Cut ds cs2 parts := by
  induction n generalizing cs1 cs2 result with
  | zero => omega
  | succ n ih =>
    have hlast : ¬ ds <:+: cs2 → ∃ rs parts, splitEnd charSigned string (utf8 cs1).length result = pure (result ++ rs) ∧
        List.Forall₂ (fun r p => r.Stores charSigned (utf8 p)) rs parts ∧ Cut ds cs2 parts := fun hnot => by
      obtain ⟨r, hr, hstores⟩ := splitEnd_text hs h hlt result
      exact ⟨[r], [cs2], hr, .cons hstores .nil, .last hnot⟩
    have hlen : (utf8 (cs1 ++ cs2)).length = _ := length_utf8_append
    rw [splitFrom, hs.length_eq, hlen]
    by_cases hcs2 : utf8 cs2 = []
    · rw [if_neg (by rw [hcs2, List.length_nil]; omega)]
      exact hlast (not_infix_of_utf8_eq_nil hds hne hcs2)
    have hpos := List.length_pos_of_ne_nil hcs2
    rw [if_pos (by omega)]
    rcases stringIndexOf_text hs hn h hds hne hlt hlt' hcs2 with ⟨ms, rest, rfl, hfirst, hindex⟩ | ⟨hnot, hindex⟩
    · obtain ⟨r, hr, hstores⟩ := stringSubscript_between hs h hlt (by omega)
      have hdpos := List.length_pos_of_ne_nil (utf8_ne_nil hds hne)
      have hassoc : cs1 ++ (ms ++ (ds ++ rest)) = (cs1 ++ (ms ++ ds)) ++ rest := by simp
      rw [length_utf8_append, length_utf8_append] at hrounds
      rw [hassoc] at hs h hlt
      obtain ⟨rs, parts, hrun, hparts, hrest⟩ := ih hs h hlt (by omega) (result ++ [r])
      refine ⟨r :: rs, ms :: parts, ?_, .cons hstores hparts, .cut hfirst hrest⟩
      rw [hindex, pure_bind, if_pos (by omega), hr, pure_bind, behind_place hn, hrun, List.append_assoc]
      rfl
    · rw [hindex, pure_bind, if_neg (by simp)]
      exact hlast hnot

/-- **`split`** cuts a text where the delimiter occurs. -/
lemma split_text (hs : string.Stores charSigned (utf8 cs)) (hn : delimiter.Stores charSigned (utf8 ds)) (h : CodePoints cs)
    (hds : CodePoints ds) (hne : ds ≠ []) (hlt : (utf8 cs).length < 2 ^ 31) (hlt' : (utf8 ds).length < 2 ^ 31) :
    ∃ rs parts, split charSigned string delimiter = pure rs ∧
      List.Forall₂ (fun r p => r.Stores charSigned (utf8 p)) rs parts ∧ Cut ds cs parts := by
  rw [← List.nil_append cs] at hs h hlt
  obtain ⟨rs, parts, hrun, hparts, hcut⟩ := splitFrom_text hs hn h hds hne hlt hlt' (Nat.lt_succ_self _) []
  refine ⟨rs, parts, ?_, hparts, hcut⟩
  rw [split, if_neg (length_ne_zero hn hds hne), hs.length_eq]
  exact hrun

end Split

/-! ### Joining and replacing -/

section Join

variable {charSigned : Bool} {string delimiter pattern by_ sep result : ObjString} {cs cs1 cs2 ds es : List ℕ}
  {x y w : List UInt8} {rs : List ObjString}

lemma intercalate_cons (w p : List UInt8) (ps : List (List UInt8)) : w.intercalate (p :: ps) = p ++ ps.flatMap (w ++ ·) := by
  induction ps generalizing p with
  | nil => simp
  | cons q ps ih => rw [List.intercalate_cons_cons, ih, List.flatMap_cons, List.append_assoc, List.append_assoc]

lemma joinFrom_stores {parts : List (List UInt8)} (hsep : sep.Stores charSigned w) (hx : result.Stores charSigned x)
    (hrs : List.Forall₂ (ObjString.Stores charSigned) rs parts) (hlt : (x ++ parts.flatMap (w ++ ·)).length < 2 ^ 32) :
    ∃ r, joinFrom charSigned sep false result rs = pure r ∧ r.Stores charSigned (x ++ parts.flatMap (w ++ ·)) := by
  induction hrs generalizing x result with
  | nil => exact ⟨result, rfl, by simpa using hx⟩
  | cons hp hps ih =>
    rename_i e p rs parts
    simp only [List.flatMap_cons, List.length_append] at hlt
    obtain ⟨r1, hr1, h1⟩ := stringPlus_stores hx hsep (by omega)
    obtain ⟨r2, hr2, h2⟩ := stringPlus_stores h1 hp (by rw [List.length_append]; omega)
    obtain ⟨r, hr, h⟩ := ih h2 (by simp only [List.length_append]; omega)
    refine ⟨r, ?_, ?_⟩
    · rw [joinFrom, separated, if_neg (by decide), hr1, defined_some, pure_bind, hr2, defined_some, pure_bind, hr]
    · simpa [List.append_assoc] using h

/-- **`join`** puts the strings together with the separator between them. -/
lemma join_stores {parts : List (List UInt8)} (hsep : sep.Stores charSigned w)
    (hrs : List.Forall₂ (ObjString.Stores charSigned) rs parts) (hlt : (w.intercalate parts).length < 2 ^ 32) :
    ∃ r, join charSigned rs sep = pure r ∧ r.Stores charSigned (w.intercalate parts) := by
  obtain ⟨r0, hr0, h0⟩ := wrenNewStringLength_of_lt charSigned (show ([] : List UInt8).length < 2 ^ 32 by decide)
  unfold join
  rw [hr0, defined_some, pure_bind]
  cases hrs with
  | nil => exact ⟨r0, rfl, h0⟩
  | cons hp hps =>
    rename_i e p rs parts
    rw [intercalate_cons] at hlt ⊢
    obtain ⟨r1, hr1, h1⟩ := stringPlus_stores h0 hp (by
      rw [List.length_append] at hlt
      rw [List.length_nil]
      omega)
    obtain ⟨r, hr, h⟩ := joinFrom_stores hsep h1 hps hlt
    refine ⟨r, ?_, h⟩
    rw [joinFrom, separated, if_pos rfl, pure_bind, hr1, defined_some, pure_bind, hr]

lemma utf8_intercalate (ds : List ℕ) (parts : List (List ℕ)) :
    utf8 (ds.intercalate parts) = (utf8 ds).intercalate (parts.map utf8) := by
  induction parts with
  | nil => rfl
  | cons p parts ih =>
    cases parts with
    | nil => simp
    | cons q parts =>
      rw [List.intercalate_cons_cons, utf8_append, utf8_append, ih]
      exact (List.intercalate_cons_cons ..).symm

lemma replaceEnd_text (hs : string.Stores charSigned (utf8 (cs1 ++ cs2))) (h : CodePoints (cs1 ++ cs2))
    (hlt : (utf8 (cs1 ++ cs2)).length < 2 ^ 31) (hx : result.Stores charSigned x)
    (hout : (x ++ utf8 cs2).length < 2 ^ 32) :
    ∃ r, replaceEnd charSigned string (utf8 cs1).length result = pure r ∧ r.Stores charSigned (x ++ utf8 cs2) := by
  unfold replaceEnd
  rw [hs.length_eq, length_utf8_append]
  by_cases hcs2 : utf8 cs2 = []
  · rw [hcs2, List.length_nil, Nat.add_zero, if_neg (lt_irrefl _), List.append_nil]
    exact ⟨result, rfl, hx⟩
  · have hpos := List.length_pos_of_ne_nil hcs2
    obtain ⟨piece, hpiece, hstores⟩ := stringSubscript_rest hs h hlt hcs2
    obtain ⟨r, hr, hr'⟩ := stringPlus_stores hx hstores (by rwa [List.length_append] at hout)
    refine ⟨r, ?_, hr'⟩
    rw [if_pos (by omega), hpiece, pure_bind, hr, defined_some]

/-- **The loop of `replace`**, which cuts the text as the one of `split` does. -/
lemma replaceFrom_text (hs : string.Stores charSigned (utf8 (cs1 ++ cs2))) (hn : pattern.Stores charSigned (utf8 ds))
    (hby : by_.Stores charSigned w) (h : CodePoints (cs1 ++ cs2)) (hds : CodePoints ds) (hne : ds ≠ [])
    (hlt : (utf8 (cs1 ++ cs2)).length < 2 ^ 31) (hlt' : (utf8 ds).length < 2 ^ 31) {n : ℕ} (hrounds : (utf8 cs2).length < n)
    (hx : result.Stores charSigned x) {parts : List (List ℕ)} (hcut : Cut ds cs2 parts)
    (hout : (x ++ w.intercalate (parts.map utf8)).length < 2 ^ 32) :
    ∃ r, replaceFrom charSigned string pattern by_ n (utf8 cs1).length result = pure r ∧
      r.Stores charSigned (x ++ w.intercalate (parts.map utf8)) := by
  induction n generalizing cs1 cs2 result x parts with
  | zero => omega
  | succ n ih =>
    have hlast : ¬ ds <:+: cs2 → ∃ r, replaceEnd charSigned string (utf8 cs1).length result = pure r ∧
        r.Stores charSigned (x ++ w.intercalate (parts.map utf8)) := fun hnot => by
      obtain rfl := hcut.unique (.last hnot)
      simp only [List.map_cons, List.map_nil, List.intercalate_singleton] at hout ⊢
      exact replaceEnd_text hs h hlt hx hout
    have hlen : (utf8 (cs1 ++ cs2)).length = _ := length_utf8_append
    rw [replaceFrom, hs.length_eq, hlen]
    by_cases hcs2 : utf8 cs2 = []
    · rw [if_neg (by rw [hcs2, List.length_nil]; omega)]
      exact hlast (not_infix_of_utf8_eq_nil hds hne hcs2)
    have hpos := List.length_pos_of_ne_nil hcs2
    rw [if_pos (by omega)]
    rcases stringIndexOf_text hs hn h hds hne hlt hlt' hcs2 with ⟨ms, rest, rfl, hfirst, hindex⟩ | ⟨hnot, hindex⟩
    · obtain ⟨piece, hpiece, hp⟩ := stringSubscript_between hs h hlt (by omega)
      have hdpos := List.length_pos_of_ne_nil (utf8_ne_nil hds hne)
      have hassoc : cs1 ++ (ms ++ (ds ++ rest)) = (cs1 ++ (ms ++ ds)) ++ rest := by simp
      obtain ⟨ps, hps⟩ := Cut.exists_cut hne rest
      obtain rfl := hcut.unique (.cut hfirst hps)
      rw [length_utf8_append, length_utf8_append] at hrounds
      rw [hassoc] at hs h hlt
      obtain ⟨q, qs, rfl⟩ := List.exists_cons_of_ne_nil hps.ne_nil
      simp only [List.map_cons, List.intercalate_cons_cons] at hout ⊢
      obtain ⟨r1, hr1, h1⟩ := stringPlus_stores hx hp (by simp only [List.length_append] at hout; omega)
      obtain ⟨r2, hr2, h2⟩ := stringPlus_stores h1 hby (by simp only [List.length_append] at hout ⊢; omega)
      obtain ⟨r, hr, hstores⟩ := ih hs h hlt (by omega) h2 hps (by simpa [List.append_assoc] using hout)
      refine ⟨r, ?_, by simpa [List.append_assoc] using hstores⟩
      rw [hindex, pure_bind, if_pos (by omega), hpiece, pure_bind, hr1, defined_some, pure_bind, hr2, defined_some,
        pure_bind, behind_place hn, hr]
    · rw [hindex, pure_bind, if_neg (by simp)]
      exact hlast hnot

/-- **`replace`** puts another text between the parts of `split`. -/
theorem replace_spec (hs : string.Stores charSigned (utf8 cs)) (hn : pattern.Stores charSigned (utf8 ds))
    (hby : by_.Stores charSigned (utf8 es)) (h : CodePoints cs) (hds : CodePoints ds) (hne : ds ≠ [])
    (hlt : (utf8 cs).length < 2 ^ 31) (hlt' : (utf8 ds).length < 2 ^ 31) :
    ∃ parts, Cut ds cs parts ∧ ((utf8 (es.intercalate parts)).length < 2 ^ 32 →
      ∃ r, replace charSigned string pattern by_ = pure r ∧ r.Stores charSigned (utf8 (es.intercalate parts))) := by
  obtain ⟨parts, hcut⟩ := Cut.exists_cut hne cs
  refine ⟨parts, hcut, fun hout => ?_⟩
  obtain ⟨r0, hr0, h0⟩ := wrenNewStringLength_of_lt charSigned (show ([] : List UInt8).length < 2 ^ 32 by decide)
  rw [utf8_intercalate] at hout ⊢
  rw [← List.nil_append cs] at hs h hlt
  obtain ⟨r, hr, hstores⟩ := replaceFrom_text hs hn hby h hds hne hlt hlt' (Nat.lt_succ_self _) h0 hcut hout
  refine ⟨r, ?_, hstores⟩
  rw [replace, if_neg (length_ne_zero hn hds hne), hr0, defined_some, pure_bind, hs.length_eq]
  exact hr

/-- `"ss"` for `"ß"` in `"aßb"` -/
theorem replace_spec_ss : ∃ string pattern by_ r, wrenNewStringLength true (utf8 [97, 223, 98]) = some string ∧
    wrenNewStringLength true (utf8 [223]) = some pattern ∧ wrenNewStringLength true (utf8 [115, 115]) = some by_ ∧
    replace true string pattern by_ = pure r ∧ r.Stores true (utf8 [97, 115, 115, 98]) := by
  obtain ⟨string, hnew, hs⟩ := wrenNewStringLength_of_lt true (show (utf8 [97, 223, 98]).length < 2 ^ 32 by decide)
  obtain ⟨pattern, hnew', hn⟩ := wrenNewStringLength_of_lt true (show (utf8 [223]).length < 2 ^ 32 by decide)
  obtain ⟨by_, hnew'', hby⟩ := wrenNewStringLength_of_lt true (show (utf8 [115, 115]).length < 2 ^ 32 by decide)
  obtain ⟨parts, hcut, h⟩ := replace_spec hs hn hby (by decide) (by decide) (by decide) (by decide) (by decide)
  have hcut' : Cut [223] [97, 223, 98] [[97], [98]] := .cut (x := [97]) (by decide) (.last (by decide))
  obtain rfl := hcut.unique hcut'
  obtain ⟨r, hr, hstores⟩ := h (by decide)
  exact ⟨string, pattern, by_, r, hnew, hnew', hnew'', hr, hstores⟩

end Join

end Wrensong.Wren
