import Wrensong.Lib.Block
import Wrensong.Lib.SelfSync

/-!
# UTF-8

`wrenUtf8Encode` and `wrenUtf8Decode` are the functions of the machine, a pointer being the cells from it on.
`wrenUtf8Decode_word` says that what is encoded is decoded again, whatever stands behind it, and `selfSync` that the code is
self-synchronizing: the first byte of a character does not continue one, and the others do.
-/

namespace Wrensong.Wren

open Wrensong.Lib

/-- The largest code point. -/
def maxCodePoint : ℕ := 0x10ffff

/-- `wrenUtf8EncodeNumBytes` -/
def wrenUtf8EncodeNumBytes (value : ℕ) : ℕ :=
  if value ≤ 0x7f then 1
  else if value ≤ 0x7ff then 2
  else if value ≤ 0xffff then 3
  else if value ≤ 0x10ffff then 4
  else 0

/-- The bytes that `wrenUtf8Encode` writes. Behind the last case it is not to be called. -/
def wrenUtf8Encode (value : ℕ) : Option (List UInt8) :=
  if value ≤ 0x7f then some [.ofNat (value &&& 0x7f)]
  else if value ≤ 0x7ff then some [.ofNat (0xc0 ||| (value &&& 0x7c0) >>> 6), .ofNat (0x80 ||| (value &&& 0x3f))]
  else if value ≤ 0xffff then
    some [.ofNat (0xe0 ||| (value &&& 0xf000) >>> 12), .ofNat (0x80 ||| (value &&& 0xfc0) >>> 6),
      .ofNat (0x80 ||| (value &&& 0x3f))]
  else if value ≤ 0x10ffff then
    some [.ofNat (0xf0 ||| (value &&& 0x1c0000) >>> 18), .ofNat (0x80 ||| (value &&& 0x3f000) >>> 12),
      .ofNat (0x80 ||| (value &&& 0xfc0) >>> 6), .ofNat (0x80 ||| (value &&& 0x3f))]
  else none

/-- The loop of `wrenUtf8Decode` over the remaining bytes. The outer result is missing where a read leaves the block, the
inner one is missing for `-1`. -/
def decodeRest : ℕ → ℕ → Block UInt8 → Option (Option ℕ)
  | 0, value, _ => some (some value)
  | n + 1, value, bytes => do
    let b ← bytes.read 0
    if b &&& 0xc0 ≠ 0x80 then some none else decodeRest n (value <<< 6 ||| (b &&& 0x3f).toNat) (bytes.drop 1)

/-- `wrenUtf8Decode` behind the first byte. It does not read past the end. -/
def decodeBehind (bytes : Block UInt8) (length remainingBytes : UInt32) (value : UInt8) : Option (Option ℕ) :=
  if length - 1 < remainingBytes then some none else decodeRest remainingBytes.toNat value.toNat (bytes.drop 1)

/-- `wrenUtf8Decode` -/
def wrenUtf8Decode (bytes : Block UInt8) (length : UInt32) : Option (Option ℕ) := do
  let b ← bytes.read 0
  if b ≤ 0x7f then some (some b.toNat)
  else if b &&& 0xe0 = 0xc0 then decodeBehind bytes length 1 (b &&& 0x1f)
  else if b &&& 0xf0 = 0xe0 then decodeBehind bytes length 2 (b &&& 0x0f)
  else if b &&& 0xf8 = 0xf0 then decodeBehind bytes length 3 (b &&& 0x07)
  else some none

/-- `wrenUtf8DecodeNumBytes` -/
def wrenUtf8DecodeNumBytes (byte : UInt8) : ℕ :=
  if byte &&& 0xc0 = 0x80 then 0
  else if byte &&& 0xf8 = 0xf0 then 4
  else if byte &&& 0xf0 = 0xe0 then 3
  else if byte &&& 0xe0 = 0xc0 then 2
  else 1

/-! ### The words of the code -/

/-- A byte that continues a character. -/
def Continues (b : UInt8) : Prop := b &&& 0xc0 = 0x80

instance (b : UInt8) : Decidable (Continues b) := inferInstanceAs (Decidable (_ = _))

/-- The bytes of a code point. -/
def word (c : ℕ) : List UInt8 := (wrenUtf8Encode c).getD []

/-- The bytes of a text. -/
def utf8 (cs : List ℕ) : List UInt8 := cs.flatMap word

/-- The byte that continues a character with six bits. -/
def tailByte (x : ℕ) : UInt8 := .ofNat (0x80 ||| x)

section Bytes

variable {x v c : ℕ} {b : UInt8}

lemma tailByte_spec (hx : x < 64) : Continues (tailByte x) ∧ (tailByte x &&& 0x3f).toNat = x := by
  interval_cases x <;> decide

lemma lead_one (hx : x < 128) : ¬ Continues (.ofNat x) ∧ UInt8.ofNat x ≤ 0x7f ∧ (UInt8.ofNat x).toNat = x ∧
    wrenUtf8DecodeNumBytes (.ofNat x) = 1 := by
  interval_cases x <;> decide

lemma lead_two (hx : x < 32) (hb : b = .ofNat (0xc0 ||| x)) : ¬ Continues b ∧ ¬ b ≤ 0x7f ∧ b &&& 0xe0 = 0xc0 ∧
    (b &&& 0x1f).toNat = x ∧ wrenUtf8DecodeNumBytes b = 2 := by
  subst hb
  interval_cases x <;> decide

lemma lead_three (hx : x < 16) (hb : b = .ofNat (0xe0 ||| x)) : ¬ Continues b ∧ ¬ b ≤ 0x7f ∧ ¬ b &&& 0xe0 = 0xc0 ∧
    b &&& 0xf0 = 0xe0 ∧ (b &&& 0x0f).toNat = x ∧ wrenUtf8DecodeNumBytes b = 3 := by
  subst hb
  interval_cases x <;> decide

lemma lead_four (hx : x < 8) (hb : b = .ofNat (0xf0 ||| x)) : ¬ Continues b ∧ ¬ b ≤ 0x7f ∧ ¬ b &&& 0xe0 = 0xc0 ∧
    ¬ b &&& 0xf0 = 0xe0 ∧ b &&& 0xf8 = 0xf0 ∧ (b &&& 0x07).toNat = x ∧ wrenUtf8DecodeNumBytes b = 4 := by
  subst hb
  interval_cases x <;> decide

/-- The bits of a mask that lie together. -/
lemma masked (c n m : ℕ) : (c &&& (2 ^ n - 1) <<< m) >>> m = c / 2 ^ m % 2 ^ n := by
  rw [Nat.shiftRight_and_distrib, Nat.shiftLeft_shiftRight, Nat.and_two_pow_sub_one_eq_mod, Nat.shiftRight_eq_div_pow]

/-- Six bits more. -/
lemma append_six (hx : x < 64) : v <<< 6 ||| x = v * 64 + x := by
  rw [← Nat.shiftLeft_add_eq_or_of_lt (by simpa using hx), Nat.shiftLeft_eq]

/-- The four forms of a word. -/
lemma word_cases (hc : c ≤ maxCodePoint) :
    (c < 128 ∧ word c = [.ofNat c]) ∨
    (c / 64 < 32 ∧ word c = [.ofNat (0xc0 ||| c / 64), tailByte (c % 64)]) ∨
    (c / 4096 < 16 ∧ word c = [.ofNat (0xe0 ||| c / 4096), tailByte (c / 64 % 64), tailByte (c % 64)]) ∨
    (c / 262144 < 8 ∧ word c = [.ofNat (0xf0 ||| c / 262144), tailByte (c / 4096 % 64), tailByte (c / 64 % 64),
      tailByte (c % 64)]) := by
  unfold maxCodePoint at hc
  have h7 : c &&& 0x7f = c % 128 := Nat.and_two_pow_sub_one_eq_mod c 7
  have h6 : c &&& 0x3f = c % 64 := Nat.and_two_pow_sub_one_eq_mod c 6
  have h56 : (c &&& 0x7c0) >>> 6 = c / 64 % 32 := masked c 5 6
  have h66 : (c &&& 0xfc0) >>> 6 = c / 64 % 64 := masked c 6 6
  have h412 : (c &&& 0xf000) >>> 12 = c / 4096 % 16 := masked c 4 12
  have h612 : (c &&& 0x3f000) >>> 12 = c / 4096 % 64 := masked c 6 12
  have h318 : (c &&& 0x1c0000) >>> 18 = c / 262144 % 8 := masked c 3 18
  unfold word wrenUtf8Encode tailByte
  rw [h7, h6, h56, h66, h412, h612, h318]
  split_ifs with h1 h2 h3
  · refine Or.inl ⟨by omega, ?_⟩
    rw [Nat.mod_eq_of_lt (by omega)]
    rfl
  · refine Or.inr (Or.inl ⟨by omega, ?_⟩)
    rw [Nat.mod_eq_of_lt (show c / 64 < 32 by omega)]
    rfl
  · refine Or.inr (Or.inr (Or.inl ⟨by omega, ?_⟩))
    rw [Nat.mod_eq_of_lt (show c / 4096 < 16 by omega)]
    rfl
  · refine Or.inr (Or.inr (Or.inr ⟨by omega, ?_⟩))
    rw [Nat.mod_eq_of_lt (show c / 262144 < 8 by omega)]
    rfl

end Bytes

/-! ### Decoding -/

section Decode

variable {c x v n : ℕ} {bytes : Block UInt8} {l : List UInt8} {length : UInt32}

lemma decodeRest_cons (hx : x < 64) (h : bytes.Starts (tailByte x :: l)) :
    ∃ r, Block.Starts r l ∧ decodeRest (n + 1) v bytes = decodeRest n (v * 64 + x) r := by
  obtain ⟨r, rfl, hr⟩ := Block.starts_cons.1 h
  obtain ⟨hc, hb⟩ := tailByte_spec hx
  refine ⟨r, hr, ?_⟩
  rw [decodeRest]
  change (if ¬ Continues (tailByte x) then _ else _) = _
  rw [if_neg (not_not.2 hc), hb, append_six hx]
  rfl

lemma length_sub_one (hlen : n < length.toNat) {k : UInt32} (hk : k.toNat ≤ n) : ¬ length - 1 < k := by
  have hone : 1 ≤ length := by
    rw [UInt32.le_iff_toNat_le]
    change 1 ≤ length.toNat
    omega
  rw [UInt32.lt_iff_toNat_lt, UInt32.toNat_sub_of_le _ _ hone]
  change ¬ length.toNat - 1 < k.toNat
  omega

/-- **What is encoded is decoded again.** -/
theorem wrenUtf8Decode_word (hc : c ≤ maxCodePoint) (h : bytes.Starts (word c)) (hlen : (word c).length ≤ length.toNat) :
    wrenUtf8Decode bytes length = some (some c) := by
  rcases word_cases hc with ⟨hx, hw⟩ | ⟨hx, hw⟩ | ⟨hx, hw⟩ | ⟨hx, hw⟩ <;> rw [hw] at h hlen <;>
    obtain ⟨r, rfl, hr⟩ := Block.starts_cons.1 h
  · obtain ⟨-, hle, hv, -⟩ := lead_one hx
    change (if _ then _ else _) = _
    rw [if_pos hle, hv]
  · obtain ⟨-, hle, h1, hv, -⟩ := lead_two hx rfl
    obtain ⟨r1, -, e1⟩ := decodeRest_cons (n := 0) (v := c / 64) (Nat.mod_lt c (by decide)) hr
    change (if _ then _ else _) = _
    rw [if_neg hle, if_pos h1, decodeBehind, if_neg (length_sub_one hlen le_rfl), hv]
    refine e1.trans ?_
    rw [decodeRest, show c / 64 * 64 + c % 64 = c by omega]
  · obtain ⟨-, hle, h1, h2, hv, -⟩ := lead_three hx rfl
    obtain ⟨r1, hr1, e1⟩ := decodeRest_cons (n := 1) (v := c / 4096) (Nat.mod_lt (c / 64) (by decide)) hr
    obtain ⟨r2, -, e2⟩ := decodeRest_cons (n := 0) (v := c / 4096 * 64 + c / 64 % 64) (Nat.mod_lt c (by decide)) hr1
    change (if _ then _ else _) = _
    rw [if_neg hle, if_neg h1, if_pos h2, decodeBehind, if_neg (length_sub_one hlen le_rfl), hv]
    refine (e1.trans e2).trans ?_
    rw [decodeRest, show (c / 4096 * 64 + c / 64 % 64) * 64 + c % 64 = c by omega]
  · obtain ⟨-, hle, h1, h2, h3, hv, -⟩ := lead_four hx rfl
    obtain ⟨r1, hr1, e1⟩ := decodeRest_cons (n := 2) (v := c / 262144) (Nat.mod_lt (c / 4096) (by decide)) hr
    obtain ⟨r2, hr2, e2⟩ := decodeRest_cons (n := 1) (v := c / 262144 * 64 + c / 4096 % 64)
      (Nat.mod_lt (c / 64) (by decide)) hr1
    obtain ⟨r3, -, e3⟩ := decodeRest_cons (n := 0) (v := (c / 262144 * 64 + c / 4096 % 64) * 64 + c / 64 % 64)
      (Nat.mod_lt c (by decide)) hr2
    change (if _ then _ else _) = _
    rw [if_neg hle, if_neg h1, if_neg h2, if_pos h3, decodeBehind, if_neg (length_sub_one hlen le_rfl), hv]
    refine (e1.trans (e2.trans e3)).trans ?_
    rw [decodeRest, show ((c / 262144 * 64 + c / 4096 % 64) * 64 + c / 64 % 64) * 64 + c % 64 = c by omega]

end Decode

/-! ### The code -/

section Code

variable {a b c : ℕ} {cs ds : List ℕ}

lemma wrenUtf8Encode_eq (hc : c ≤ maxCodePoint) : wrenUtf8Encode c = some (word c) := by
  unfold maxCodePoint at hc
  unfold word wrenUtf8Encode
  split_ifs <;> rfl

/-- A word: the byte it begins with tells its length, and the others continue it. None of them is `0xff`. -/
lemma word_spec (hc : c ≤ maxCodePoint) : ∃ b t, word c = b :: t ∧ ¬ Continues b ∧ (∀ x ∈ t, Continues x) ∧
    wrenUtf8DecodeNumBytes b = (word c).length ∧ (∀ x ∈ word c, x ≠ 0xff) := by
  have hff : ∀ {x : UInt8}, Continues x → x ≠ 0xff := by
    rintro x hx rfl
    exact absurd hx (by decide)
  have htail : ∀ x, Continues (tailByte (x % 64)) := fun x => (tailByte_spec (Nat.mod_lt x (by decide))).1
  rcases word_cases hc with ⟨hx, hw⟩ | ⟨hx, hw⟩ | ⟨hx, hw⟩ | ⟨hx, hw⟩ <;> rw [hw]
  · obtain ⟨hlead, hle, -, hn⟩ := lead_one hx
    refine ⟨_, _, rfl, hlead, by simp, hn, ?_⟩
    intro x hx e
    rw [← List.mem_singleton.1 hx, e] at hle
    exact absurd hle (by decide)
  all_goals
    first
    | obtain ⟨hlead, -, h1, -, hn⟩ := lead_two hx rfl
    | obtain ⟨hlead, -, -, h1, -, hn⟩ := lead_three hx rfl
    | obtain ⟨hlead, -, -, -, h1, -, hn⟩ := lead_four hx rfl
    refine ⟨_, _, rfl, hlead, by simp [htail], hn, ?_⟩
    intro x hx
    rcases List.mem_cons.1 hx with rfl | hx
    · intro e
      rw [e] at h1
      exact absurd h1 (by decide)
    · refine hff ?_
      simp only [List.mem_cons, List.not_mem_nil, or_false] at hx
      rcases hx with rfl | rfl | rfl <;> exact htail _

lemma length_word_pos (hc : c ≤ maxCodePoint) : 0 < (word c).length := by
  obtain ⟨b, t, hw, -⟩ := word_spec hc
  rw [hw]
  exact Nat.succ_pos _

lemma wrenUtf8EncodeNumBytes_eq (hc : c ≤ maxCodePoint) : wrenUtf8EncodeNumBytes c = (word c).length := by
  unfold maxCodePoint at hc
  unfold wrenUtf8EncodeNumBytes word wrenUtf8Encode
  split_ifs <;> rfl

/-- **The code is self-synchronizing.** No word begins another because decoding does not look behind a word. -/
theorem selfSync : SelfSync word (· ≤ maxCodePoint) fun b => ¬ Continues b where
  starts hc := by
    obtain ⟨b, t, hw, hb, ht, -⟩ := word_spec hc
    exact ⟨b, t, hw, hb, fun x hx => not_not.2 (ht x hx)⟩
  prefix_free {a b} ha hb hp := by
    have hstarts : Block.Starts ((word b).map some) (word b) := List.prefix_rfl
    have hlen := hp.length_le
    have h4 : (word b).length ≤ (4 : UInt32).toNat := by
      rw [← wrenUtf8EncodeNumBytes_eq hb]
      unfold wrenUtf8EncodeNumBytes
      split_ifs <;> decide
    have h1 := wrenUtf8Decode_word ha (hstarts.of_isPrefix hp) (hlen.trans h4)
    rw [wrenUtf8Decode_word hb hstarts h4] at h1
    exact (Option.some.inj (Option.some.inj h1)).symm

lemma utf8_append : utf8 (cs ++ ds) = utf8 cs ++ utf8 ds := List.flatMap_append

lemma utf8_cons : utf8 (c :: cs) = word c ++ utf8 cs := List.flatMap_cons

/-- A byte `0xff` stands in no text. -/
lemma ff_not_mem_utf8 (hcs : ∀ c ∈ cs, c ≤ maxCodePoint) : (0xff : UInt8) ∉ utf8 cs := by
  intro h
  obtain ⟨c, hc, hmem⟩ := List.mem_flatMap.1 h
  obtain ⟨_, _, -, -, -, -, hff⟩ := word_spec (hcs c hc)
  exact hff _ hmem rfl

end Code

end Wrensong.Wren
