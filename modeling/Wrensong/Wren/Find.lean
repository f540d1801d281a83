import Wrensong.Lib.Occurs
import Wrensong.Wren.Reference

/-!
# Searching in strings

`wrenStringFind` is the search of Boyer, Moore and Horspool: it compares at an index, and goes on by the entry of a table
for the last byte of the window. `wrenStringFind_spec` says that its result is the first place, and that there is one where
no byte is `0xff`: the table has no entry for it.
-/

namespace Wrensong.Wren

open Wrensong.Lib

/-- The loop of `wrenStringFind` that goes through the needle. -/
def shiftFrom (needle : ObjString) (needleEnd : UInt32) (shift : Block UInt32) (index : UInt32) : Option (Block UInt32) :=
  if hi : index < needleEnd then do
    let c ← needle.value.read index.toNat
    let shift ← shift.store c.toNat [needleEnd - index]
    shiftFrom needle needleEnd shift (index + 1)
  else some shift
termination_by needleEnd.toNat - index.toNat
decreasing_by
  have hlt := UInt32.lt_iff_toNat_lt.1 hi
  have hnext := Block.toNat_succ_of_lt hi
  omega

/-- The test of a window, whose last byte is compared first. -/
def windowMatches (haystack needle : ObjString) (needleEnd : UInt32) (lastChar c : UInt8) (index : UInt32) : Option Bool :=
  if lastChar = c then Block.memcmpEq (haystack.value.drop index.toNat) needle.value needleEnd.toNat else some false

/-- The loop of `wrenStringFind` that slides the needle, for at most `n` windows. -/
def slideFrom (haystack needle : ObjString) (shift : Block UInt32) (needleEnd range : UInt32) (lastChar : UInt8) :
    ℕ → UInt32 → Option UInt32
  | 0, _ => none
  | n + 1, index =>
    if index ≤ range then do
      let c ← haystack.value.read (index + needleEnd).toNat
      let found ← windowMatches haystack needle needleEnd lastChar c index
      if found then some index
      else (shift.read c.toNat).bind fun by_ => slideFrom haystack needle shift needleEnd range lastChar n (index + by_)
    else some 0xffffffff

/-- `wrenStringFind`. The table has `UINT8_MAX` entries. There is no result where a read or a store leaves it. -/
def wrenStringFind (haystack needle : ObjString) (start : UInt32) : Option UInt32 :=
  if needle.length = 0 then some start
  else if haystack.length < start + needle.length then some 0xffffffff
  else if haystack.length ≤ start then some 0xffffffff
  else do
    let needleEnd := needle.length - 1
    let shift ← shiftFrom needle needleEnd (List.replicate 255 (some needle.length)) 0
    let lastChar ← needle.value.read needleEnd.toNat
    slideFrom haystack needle shift needleEnd (haystack.length - needle.length) lastChar (haystack.length.toNat + 1) start

/-- What `wrenStringFind` is to return: the first place from `start` on, or the largest number. -/
def Found (d s : List UInt8) (start : ℕ) (r : UInt32) : Prop :=
  FirstAt d s start r.toNat ∨ (r = 0xffffffff ∧ ∀ j, start ≤ j → ¬ OccursAt d s j)

/-! ### The table -/

/-- The table behind the first `i` bytes of the needle. -/
structure Filled (d : List UInt8) (i : ℕ) (table : Block UInt32) : Prop where
  length_eq : table.length = 255
  entry : ∀ c, c < 255 → ∃ v, table.read c = some v ∧ 0 < v.toNat ∧ v.toNat ≤ d.length ∧
    ∀ k x, k < i → d[k]? = some x → x.toNat = c → v.toNat ≤ d.length - 1 - k

section Table

variable {charSigned : Bool} {needle : ObjString} {d : List UInt8} {table : Block UInt32} {i : ℕ}

lemma filled_zero (hlen : needle.length.toNat = d.length) (hd : d ≠ []) :
    Filled d 0 (List.replicate 255 (some needle.length)) := by
  refine ⟨List.length_replicate, fun c hc => ⟨needle.length, ?_, ?_, hlen.le, fun k x hk => absurd hk (Nat.not_lt_zero k)⟩⟩
  · rw [Block.read, List.getElem?_replicate, if_pos hc]
    rfl
  · rw [hlen]
    exact List.length_pos_of_ne_nil hd

lemma Filled.succ (h : Filled d i table) {x : UInt8} (hx : d[i]? = some x) (hi : i + 1 < d.length) (hlt : x.toNat < 255)
    {v : UInt32} (hv : v.toNat = d.length - 1 - i) : Filled d (i + 1) (table.set x.toNat (some v)) := by
  have hin : x.toNat < table.length := by rw [h.length_eq]; exact hlt
  refine ⟨by rw [List.length_set, h.length_eq], fun c hc => ?_⟩
  rw [Block.read_set hin]
  split_ifs with e
  · refine ⟨v, rfl, by omega, by omega, fun k y hk hy _ => ?_⟩
    omega
  · obtain ⟨w, hw, h1, h2, h3⟩ := h.entry c hc
    refine ⟨w, hw, h1, h2, fun k y hk hy hyc => ?_⟩
    rcases Nat.lt_succ_iff_lt_or_eq.1 hk with hk | rfl
    · exact h3 k y hk hy hyc
    · rw [hx] at hy
      cases hy
      exact absurd hyc e

/-- **The table** is filled, unless there is a `0xff` before the last byte. -/
lemma shiftFrom_spec (hn : needle.Stores charSigned d) (hd : d ≠ []) (h : Filled d i table) {index : UInt32}
    (hi : index.toNat = i) (hle : i ≤ d.length - 1) :
    (∃ table', shiftFrom needle (needle.length - 1) table index = some table' ∧ Filled d (d.length - 1) table' ∧
        ∀ k, i ≤ k → k < d.length - 1 → d[k]? ≠ some 0xff) ∨
      (shiftFrom needle (needle.length - 1) table index = none ∧ (0xff : UInt8) ∈ d.dropLast) := by
  have hpos := List.length_pos_of_ne_nil hd
  have hend : (needle.length - 1).toNat = d.length - 1 := by
    have hone : 1 ≤ needle.length := by
      rw [UInt32.le_iff_toNat_le, hn.length_eq]
      exact hpos
    rw [UInt32.toNat_sub_of_le _ _ hone, hn.length_eq]
    rfl
  obtain ⟨k, hk⟩ : ∃ k, i + k = d.length - 1 := ⟨d.length - 1 - i, by omega⟩
  induction k generalizing i index table with
  | zero =>
    left
    have hstop : ¬ index < needle.length - 1 := by
      rw [UInt32.lt_iff_toNat_lt, hend]
      omega
    rw [shiftFrom, dif_neg hstop]
    exact ⟨table, rfl, by rwa [← hk], fun k hik hk' => by omega⟩
  | succ k ih =>
    have hgo : index < needle.length - 1 := by
      rw [UInt32.lt_iff_toNat_lt, hend]
      omega
    have hlt : i < d.length := by omega
    have hx : d[i]? = some d[i] := List.getElem?_eq_getElem hlt
    have hread : needle.value.read index.toNat = some d[i] := by
      rw [hi]
      exact hn.starts.read hx
    have hnext := Block.toNat_succ_of_lt hgo
    have hv : (needle.length - 1 - index).toNat = d.length - 1 - i := by
      rw [UInt32.toNat_sub_of_le _ _ (UInt32.le_of_lt hgo), hend, hi]
    rw [shiftFrom, dif_pos hgo, hread, Option.bind_eq_bind, Option.bind_some]
    by_cases hff : d[i].toNat < 255
    · rw [Block.store_singleton (by rw [h.length_eq]; exact hff), Option.bind_eq_bind, Option.bind_some]
      refine (ih (h.succ hx (by omega) hff hv) (by omega) (by omega) (by omega)).imp_left ?_
      rintro ⟨table', htable, hfilled, hrest⟩
      refine ⟨table', htable, hfilled, fun k hik hk' => ?_⟩
      rcases Nat.lt_or_eq_of_le hik with hik | rfl
      · exact hrest k hik hk'
      · rw [hx]
        intro e
        rw [Option.some.inj e] at hff
        exact absurd hff (by decide)
    · right
      have hbyte : d[i] = 0xff := by
        have := d[i].toNat_lt
        exact UInt8.toNat_inj.1 (by change d[i].toNat = 255; omega)
      refine ⟨?_, ?_⟩
      · have hstore : table.store d[i].toNat [needle.length - 1 - index] = none := by
          unfold Block.store
          rw [h.length_eq, if_neg]
          rw [List.length_singleton]
          omega
        rw [hstore]
        rfl
      · rw [← hbyte]
        refine List.mem_iff_getElem?.2 ⟨i, ?_⟩
        rw [List.getElem?_dropLast, if_pos (by omega), hx]

/-- The entries as a function. -/
def entryOf (table : Block UInt32) (c : UInt8) : ℕ := ((table.read c.toNat).map UInt32.toNat).getD 1

lemma Filled.skips (h : Filled d (d.length - 1) table) (hd : d ≠ []) (hff : (0xff : UInt8) ∉ d.dropLast) :
    Skips d (entryOf table) := by
  have hpos := List.length_pos_of_ne_nil hd
  -- the byte without an entry
  have hcases : ∀ c : UInt8, (∃ v, table.read c.toNat = some v ∧ entryOf table c = v.toNat ∧ 0 < v.toNat ∧
      v.toNat ≤ d.length ∧ ∀ k x, k < d.length - 1 → d[k]? = some x → x.toNat = c.toNat → v.toNat ≤ d.length - 1 - k) ∨
      (c = 0xff ∧ entryOf table c = 1) := by
    intro c
    by_cases hc : c.toNat < 255
    · obtain ⟨v, hv, h1, h2, h3⟩ := h.entry _ hc
      exact Or.inl ⟨v, hv, by rw [entryOf, hv]; rfl, h1, h2, h3⟩
    · have hbyte : c = 0xff := by
        have := c.toNat_lt
        exact UInt8.toNat_inj.1 (by change c.toNat = 255; omega)
      have hnone : table.read c.toNat = none := by
        rw [Block.read, List.getElem?_eq_none (by rw [h.length_eq]; omega)]
        rfl
      exact Or.inr ⟨hbyte, by rw [entryOf, hnone]; rfl⟩
  refine ⟨fun c => ?_, fun c => ?_, fun {c k} hk hc => ?_⟩
  · rcases hcases c with ⟨v, -, e, h1, -⟩ | ⟨-, e⟩ <;> omega
  · rcases hcases c with ⟨v, -, e, -, h2, -⟩ | ⟨-, e⟩ <;> omega
  · rcases hcases c with ⟨v, -, e, -, -, h3⟩ | ⟨rfl, -⟩
    · rw [e]
      exact h3 k c (by omega) hc rfl
    · refine absurd (List.mem_iff_getElem?.2 ⟨k, ?_⟩) hff
      rw [List.getElem?_dropLast, if_pos (by omega), hc]

end Table

/-! ### The search -/

section Search

variable {charSigned : Bool} {haystack needle : ObjString} {s d : List UInt8} {table : Block UInt32} {start : ℕ}

/-- Whether the needle stands in the window. -/
lemma windowMatches_eq (hs : haystack.Stores charSigned s) (hn : needle.Stores charSigned d) (hd : d ≠ [])
    {index needleEnd : UInt32} (hend : needleEnd.toNat = d.length - 1) (hi : index.toNat + d.length ≤ s.length) {c : UInt8}
    (hc : s[index.toNat + (d.length - 1)]? = some c) :
    windowMatches haystack needle needleEnd (d.getLast hd) c index = some (decide (OccursAt d s index.toNat)) := by
  unfold windowMatches
  rw [hend]
  generalize index.toNat = i at hi hc ⊢
  have hpos := List.length_pos_of_ne_nil hd
  have hlen : (s.drop i).length = s.length - i := List.length_drop
  -- the needle is its last byte behind the others, and so is the window
  have hdlast : d.take (d.length - 1) ++ [d.getLast hd] = d := by
    rw [← List.dropLast_eq_take, List.dropLast_append_getLast]
  have hwindow : (s.drop i).take d.length = (s.drop i).take (d.length - 1) ++ [c] := by
    have hsucc : d.length = d.length - 1 + 1 := by omega
    rw [hsucc, List.take_add_one, List.getElem?_drop, hc, Nat.add_sub_cancel]
    rfl
  have hoccurs : OccursAt d s i ↔ d.getLast hd = c ∧ (s.drop i).take (d.length - 1) = d.take (d.length - 1) := by
    have htake : OccursAt d s i ↔ (s.drop i).take d.length = d := by
      rw [OccursAt, List.prefix_iff_eq_take, eq_comm]
    rw [htake, hwindow]
    constructor
    · intro h
      obtain ⟨h1, h2⟩ := List.append_inj' (h.trans hdlast.symm) rfl
      exact ⟨(List.cons.inj h2).1.symm, h1⟩
    · rintro ⟨rfl, h⟩
      rw [h, hdlast]
  by_cases hlast : d.getLast hd = c
  · rw [if_pos hlast, Block.memcmpEq_eq hs.starts.drop hn.starts (by omega) (by omega)]
    simp [hoccurs, hlast]
  · rw [if_neg hlast]
    simp [hoccurs, hlast]

/-- **The loop** has not left out a place, and comes to an end. -/
lemma slideFrom_spec (hs : haystack.Stores charSigned s) (hn : needle.Stores charSigned d) (hd : d ≠ [])
    (hle : d.length ≤ s.length) (h : Filled d (d.length - 1) table) (hff : (0xff : UInt8) ∉ d.dropLast) {n : ℕ}
    {index : UInt32} (hstart : start ≤ index.toNat) (hindex : index.toNat ≤ s.length) (hn' : s.length < n + index.toNat)
    (hleft : ∀ j, start ≤ j → j < index.toNat → ¬ OccursAt d s j) :
    (∃ r, slideFrom haystack needle table (needle.length - 1) (haystack.length - needle.length) (d.getLast hd) n index =
      some r ∧ Found d s start r) ∨
      (slideFrom haystack needle table (needle.length - 1) (haystack.length - needle.length) (d.getLast hd) n index = none ∧
        (0xff : UInt8) ∈ s) := by
  have hpos := List.length_pos_of_ne_nil hd
  have hslt : s.length < 2 ^ 32 := hs.length_eq ▸ haystack.length.toNat_lt
  have hone : 1 ≤ needle.length := by
    rw [UInt32.le_iff_toNat_le, hn.length_eq]
    exact hpos
  have hend : (needle.length - 1).toNat = d.length - 1 := by
    rw [UInt32.toNat_sub_of_le _ _ hone, hn.length_eq]
    rfl
  have hrange : (haystack.length - needle.length).toNat = s.length - d.length := by
    rw [UInt32.toNat_sub_of_le, hs.length_eq, hn.length_eq]
    rw [UInt32.le_iff_toNat_le, hs.length_eq, hn.length_eq]
    exact hle
  induction n generalizing index with
  | zero => omega
  | succ n ih =>
    rw [slideFrom]
    by_cases hin : index ≤ haystack.length - needle.length
    · rw [if_pos hin]
      rw [UInt32.le_iff_toNat_le, hrange] at hin
      have hadd : (index + (needle.length - 1)).toNat = index.toNat + (d.length - 1) := by
        rw [UInt32.toNat_add, hend]
        exact Nat.mod_eq_of_lt (by omega)
      obtain ⟨c, hc⟩ : ∃ c, s[index.toNat + (d.length - 1)]? = some c := ⟨_, List.getElem?_eq_getElem (by omega)⟩
      have hskip := fun j => (h.skips hd hff).not_at (j := j) hc
      rw [hadd, hs.starts.read hc, Option.bind_eq_bind, Option.bind_some, windowMatches_eq hs hn hd hend (by omega) hc,
        Option.bind_eq_bind, Option.bind_some]
      by_cases hocc : OccursAt d s index.toNat
      · rw [if_pos (decide_eq_true hocc)]
        exact Or.inl ⟨index, rfl, Or.inl ⟨hstart, hocc, hleft⟩⟩
      · rw [if_neg (by simpa using hocc)]
        by_cases hcff : c.toNat < 255
        · obtain ⟨v, hv, h1, h2, -⟩ := h.entry _ hcff
          have hnext : (index + v).toNat = index.toNat + v.toNat := by
            rw [UInt32.toNat_add]
            exact Nat.mod_eq_of_lt (by omega)
          have hentry : entryOf table c = v.toNat := by
            rw [entryOf, hv]
            rfl
          rw [hv, Option.bind_some]
          refine ih (by omega) (by omega) (by omega) fun j hj hlt => ?_
          rcases Nat.lt_trichotomy j index.toNat with hj' | rfl | hj'
          · exact hleft j hj hj'
          · exact hocc
          · exact hskip j hj' (by rw [hentry]; omega)
        · have hbyte : c = 0xff := by
            have := c.toNat_lt
            exact UInt8.toNat_inj.1 (by change c.toNat = 255; omega)
          have hnone : table.read c.toNat = none := by
            rw [Block.read, List.getElem?_eq_none (by rw [h.length_eq]; omega)]
            rfl
          rw [hnone]
          exact Or.inr ⟨rfl, hbyte ▸ List.mem_of_getElem? hc⟩
    · rw [if_neg hin]
      rw [UInt32.le_iff_toNat_le, hrange] at hin
      refine Or.inl ⟨_, rfl, Or.inr ⟨rfl, fun j hj hocc => ?_⟩⟩
      have := hocc.le_length hd
      exact hleft j hj (by omega) hocc

/-- **`wrenStringFind`** returns the first place, or the largest number where there is none. It leaves its table only if
there is a byte `0xff`. -/
theorem wrenStringFind_spec (hs : haystack.Stores charSigned s) (hn : needle.Stores charSigned d) {start : UInt32}
    (hfit : start.toNat + d.length < 2 ^ 32) :
    (∃ r, wrenStringFind haystack needle start = some r ∧ Found d s start.toNat r) ∨
      (wrenStringFind haystack needle start = none ∧ ((0xff : UInt8) ∈ s ∨ (0xff : UInt8) ∈ d.dropLast)) := by
  unfold wrenStringFind
  have hadd : (start + needle.length).toNat = start.toNat + d.length := by
    rw [UInt32.toNat_add, hn.length_eq]
    exact Nat.mod_eq_of_lt hfit
  by_cases hzero : needle.length = 0
  · rw [if_pos hzero]
    have hd : d = [] := by
      have hlen := hn.length_eq
      rw [hzero] at hlen
      exact List.eq_nil_of_length_eq_zero hlen.symm
    subst hd
    exact Or.inl ⟨start, rfl, Or.inl ⟨le_rfl, List.nil_prefix, fun j hj hlt => absurd hj (not_le.2 hlt)⟩⟩
  have hd : d ≠ [] := by
    rintro rfl
    exact hzero (UInt32.toNat_inj.1 hn.length_eq)
  have hnowhere : s.length < start.toNat + d.length → ∀ j, start.toNat ≤ j → ¬ OccursAt d s j := fun hlt j hj hocc => by
    have := hocc.le_length hd
    omega
  rw [if_neg hzero]
  by_cases hbehind : haystack.length < start + needle.length
  · rw [if_pos hbehind]
    rw [UInt32.lt_iff_toNat_lt, hadd, hs.length_eq] at hbehind
    exact Or.inl ⟨_, rfl, Or.inr ⟨rfl, hnowhere hbehind⟩⟩
  rw [if_neg hbehind]
  rw [UInt32.lt_iff_toNat_lt, hadd, hs.length_eq, not_lt] at hbehind
  have hpos := List.length_pos_of_ne_nil hd
  rw [if_neg (by rw [UInt32.le_iff_toNat_le, hs.length_eq]; omega)]
  have hend : (needle.length - 1).toNat = d.length - 1 := by
    rw [UInt32.toNat_sub_of_le, hn.length_eq]
    · rfl
    · rw [UInt32.le_iff_toNat_le, hn.length_eq]
      exact hpos
  have hlast : needle.value.read (needle.length - 1).toNat = some (d.getLast hd) := by
    rw [hend]
    refine hn.starts.read ?_
    rw [← List.getLast?_eq_getElem?, List.getLast?_eq_getLast_of_ne_nil hd]
  rcases shiftFrom_spec hn hd (filled_zero hn.length_eq hd) (rfl : (0 : UInt32).toNat = 0) (Nat.zero_le _) with
    ⟨table, htable, hfilled, hff⟩ | ⟨hnone, hff⟩
  · have hff' : (0xff : UInt8) ∉ d.dropLast := by
      intro hmem
      obtain ⟨k, hk⟩ := List.mem_iff_getElem?.1 hmem
      rw [List.getElem?_dropLast] at hk
      split_ifs at hk with hlt
      exact hff k (Nat.zero_le k) hlt hk
    simp only [htable, hlast, Option.bind_eq_bind, Option.bind_some]
    refine (slideFrom_spec hs hn hd (by omega) hfilled hff' le_rfl (by omega) (by rw [hs.length_eq]; omega)
      fun j hj hlt => absurd hj (not_le.2 hlt)).imp_right ?_
    rintro ⟨hnone, hmem⟩
    exact ⟨hnone, Or.inl hmem⟩
  · simp only [hnone, Option.bind_eq_bind, Option.bind_none]
    exact Or.inr ⟨trivial, Or.inr hff⟩

end Search

end Wrensong.Wren
