import Wrensong.Lib.Block
import Wrensong.Wren.Iterate

/-!
# References to strings

A string of the machine is a block with the bytes, its length and the hash of its contents; a reference is a pointer to
bytes of the host with their length and hash. Both hashes are computed by a loop of their own, over `char`, which has a sign
or not. `hashString_eq` and `wrenMakeReference_eq` say that both are the FNV-1a hash `fnv1a` of the bytes, and so a
comparison that looks at the hashes first is still exact (`bytesEqual_exact`).

The length of a string has 32 bits. `wrenNewStringLength_stores` says what a string made from a longer text holds.
-/

namespace Wrensong.Wren

open Wrensong.Lib

/-- `ObjString` -/
structure ObjString where
  length : UInt32
  hash : UInt32
  value : Block UInt8
  deriving DecidableEq

/-- `WrenReference`. The bytes are those of the host. -/
structure WrenReference where
  length : UInt32
  hash : UInt32
  bytes : Block UInt8
  deriving DecidableEq

/-- A `char` in an expression with a `uint32_t`. Whether it has a sign depends on the machine. -/
def ofChar (charSigned : Bool) (c : UInt8) : UInt32 := if charSigned then toUnsigned c.toInt8.toInt else c.toUInt32

/-- `allocateString`: the length, and the block with the terminator. -/
def allocateString (length : ℕ) : Option (UInt32 × Block UInt8) := do
  let value ← (Block.malloc (length + 1)).store length [0]
  pure (toUnsigned (toInt (.ofNat length)), value)

/-- The loop of `hashString`. -/
def hashStringFrom (charSigned : Bool) (length : UInt32) (value : Block UInt8) (i hash : UInt32) : Option UInt32 :=
  if hi : i < length then do
    let c ← value.read i.toNat
    let hash := hash ^^^ ofChar charSigned c
    hashStringFrom charSigned length value (i + 1) (hash * 16777619)
  else some hash
termination_by length.toNat - i.toNat
decreasing_by
  have hlt := UInt32.lt_iff_toNat_lt.1 hi
  have hnext := Block.toNat_succ_of_lt hi
  omega

/-- `hashString` -/
def hashString (charSigned : Bool) (length : UInt32) (value : Block UInt8) : Option UInt32 :=
  hashStringFrom charSigned length value 0 2166136261

/-- `wrenNewStringLength`, for the bytes of the text. -/
def wrenNewStringLength (charSigned : Bool) (text : List UInt8) : Option ObjString := do
  let (length, value) ← allocateString text.length
  let value ← value.store 0 text
  let hash ← hashString charSigned length value
  pure ⟨length, hash, value⟩

/-- The loop of `wrenMakeReference`. -/
def makeReferenceFrom (charSigned : Bool) (length : UInt32) (bytes : Block UInt8) (i hash : UInt32) : Option UInt32 :=
  if hi : i < length then do
    let c ← bytes.read i.toNat
    let hash := hash ^^^ ofChar charSigned c
    makeReferenceFrom charSigned length bytes (i + 1) (hash * 16777619)
  else some hash
termination_by length.toNat - i.toNat
decreasing_by
  have hlt := UInt32.lt_iff_toNat_lt.1 hi
  have hnext := Block.toNat_succ_of_lt hi
  omega

/-- `wrenMakeReference`. The length is an `int`. -/
def wrenMakeReference (charSigned : Bool) (bytes : Block UInt8) (len : ℤ) : Option WrenReference := do
  let length := toUnsigned len
  let hash ← makeReferenceFrom charSigned length bytes 0 2166136261
  pure ⟨length, hash, bytes⟩

/-- The machine with its strings. -/
structure Machine extends VM where
  strings : ℕ → Option ObjString

/-- `AS_STRING (vm->apiStack[slot])`, where there is a string. -/
def Machine.stringIn (vm : Machine) (slot : ℕ) : Option ObjString :=
  match vm.apiStack[slot]? with
  | some (.obj address) => vm.strings address
  | _ => none

/-- `wrenGetSlotBytesEqual`. There is no result where an assertion fails, or `memcmp` leaves a block. -/
def wrenGetSlotBytesEqual (vm : Machine) (slot : ℕ) (ref : WrenReference) : Option Bool := do
  let string ← vm.stringIn slot
  if string.length ≠ ref.length ∨ string.hash ≠ ref.hash then pure false
  else string.value.memcmpEq ref.bytes ref.length.toNat

/-- **A stored string**: its length is the number of the bytes, they stand at the start of the block, and the hash is the
one that `hashString` computes. -/
structure ObjString.Stores (charSigned : Bool) (string : ObjString) (a : List UInt8) : Prop where
  length_eq : string.length.toNat = a.length
  starts : string.value.Starts a
  hash_eq : hashString charSigned string.length string.value = some string.hash

/-! ### The two hashes -/

/-- The FNV-1a hash of 32 bits. -/
def fnv1a (word : UInt8 → UInt32) (l : List UInt8) : UInt32 := l.foldl (fun h c => (h ^^^ word c) * 16777619) 2166136261

section Hash

variable {charSigned : Bool} {length : UInt32} {b : Block UInt8} {a l : List UInt8}

lemma hashString_eq (charSigned : Bool) (h : b.Starts l) (hn : length.toNat ≤ l.length) :
    hashString charSigned length b = some (fnv1a (ofChar charSigned) (l.take length.toNat)) := by
  refine h.loop hn (f := hashStringFrom charSigned length b) (fun i hash c hi hc => ?_) (fun i hash hi => ?_) _
  · rw [hashStringFrom, dif_pos hi, hc]
    rfl
  · rw [hashStringFrom, dif_neg hi]

lemma makeReferenceFrom_eq (charSigned : Bool) (h : b.Starts l) (hn : length.toNat ≤ l.length) :
    makeReferenceFrom charSigned length b 0 2166136261 = some (fnv1a (ofChar charSigned) (l.take length.toNat)) := by
  refine h.loop hn (f := makeReferenceFrom charSigned length b) (fun i hash c hi hc => ?_) (fun i hash hi => ?_) _
  · rw [makeReferenceFrom, dif_pos hi, hc]
    rfl
  · rw [makeReferenceFrom, dif_neg hi]

/-- The reference of the bytes `l`. -/
lemma wrenMakeReference_eq (h : b.Starts l) (hl : l.length < 2 ^ 31) :
    wrenMakeReference charSigned b l.length =
      some ⟨toUnsigned l.length, fnv1a (ofChar charSigned) l, b⟩ := by
  have hlen : (toUnsigned l.length).toNat = l.length := toUnsigned_natCast (by omega)
  have hhash := makeReferenceFrom_eq charSigned h hlen.le
  rw [hlen, List.take_length] at hhash
  rw [wrenMakeReference, hhash]
  rfl

lemma ObjString.Stores.hash_fnv1a {string : ObjString} (h : string.Stores charSigned a) :
    string.hash = fnv1a (ofChar charSigned) a := by
  have hhash := hashString_eq charSigned h.starts h.length_eq.le
  rw [h.hash_eq, h.length_eq, List.take_length] at hhash
  exact Option.some.inj hhash

end Hash

/-! ### Strings that are stored -/

section Store

variable {charSigned : Bool} {string : ObjString} {a b : List UInt8}

/-- **What a string made from a text holds**: the text, cut to the length that 32 bits record. -/
lemma wrenNewStringLength_stores (charSigned : Bool) (text : List UInt8) :
    ∃ string, wrenNewStringLength charSigned text = some string ∧
      string.Stores charSigned (text.take (text.length % 2 ^ 32)) := by
  obtain ⟨v, hv⟩ := (Block.store_isSome (b := .malloc (text.length + 1)) (i := text.length) (l := [(0 : UInt8)])).2
    (by simp)
  have hroom : text.length ≤ v.length := by
    rw [Block.length_store hv, Block.length_malloc]
    exact Nat.le_succ _
  obtain ⟨v', hv'⟩ := (Block.store_isSome (b := v) (i := 0) (l := text)).2 (by omega)
  have hstarts : v'.Starts text := Block.starts_nil.store hv'
  have hlen : (UInt32.ofNat text.length).toNat = text.length % 2 ^ 32 := UInt32.toNat_ofNat'
  have hle : (UInt32.ofNat text.length).toNat ≤ text.length := by
    rw [hlen]
    exact Nat.mod_le _ _
  have hhash := hashString_eq charSigned hstarts hle
  refine ⟨⟨.ofNat text.length, _, v'⟩, ?_, ?_, hstarts.of_isPrefix (List.take_prefix _ _), hhash⟩
  · simp only [wrenNewStringLength, allocateString, hv, hv', toUnsigned_toInt, hhash, bind, pure, Option.bind_some]
    rfl
  · rw [List.length_take, ← hlen]
    exact (min_eq_left hle).symm

/-- A text whose length fits is stored as it is. -/
lemma wrenNewStringLength_of_lt (charSigned : Bool) {text : List UInt8} (h : text.length < 2 ^ 32) :
    ∃ string, wrenNewStringLength charSigned text = some string ∧ string.Stores charSigned text := by
  obtain ⟨string, hnew, hs⟩ := wrenNewStringLength_stores charSigned text
  rw [Nat.mod_eq_of_lt h, List.take_length] at hs
  exact ⟨string, hnew, hs⟩

/-- Behind the two tests, `memcmp` compares all the bytes. -/
lemma memcmpEq_stores {bytes : Block UInt8} (hs : string.Stores charSigned a) (hbytes : bytes.Starts b)
    (h : a.length = b.length) : string.value.memcmpEq bytes b.length = some (decide (a = b)) := by
  rw [Block.memcmpEq_eq hs.starts hbytes h.ge le_rfl, ← h, List.take_length, h, List.take_length]

/-- **The comparison is exact**, and the hashes of equal contents are equal. -/
theorem bytesEqual_exact {vm : Machine} {slot : ℕ} {bytes : Block UInt8} (hs : string.Stores charSigned a)
    (hslot : vm.stringIn slot = some string) (hbytes : bytes.Starts b) (hb : b.length < 2 ^ 31) :
    ∃ ref, wrenMakeReference charSigned bytes b.length = some ref ∧
      wrenGetSlotBytesEqual vm slot ref = some (decide (a = b)) ∧ (a = b → string.hash = ref.hash) := by
  have hlen : (toUnsigned b.length).toNat = b.length := toUnsigned_natCast (by omega)
  have hhash := hs.hash_fnv1a
  have hequal : a = b → string.hash = fnv1a (ofChar charSigned) b := fun e => e ▸ hhash
  refine ⟨_, wrenMakeReference_eq hbytes hb, ?_, hequal⟩
  unfold wrenGetSlotBytesEqual
  simp only [hslot, bind, Option.bind_some, pure]
  split_ifs with hdiffer
  · -- one of the tests fails, and so the contents differ
    have hne : a ≠ b := by
      rintro rfl
      rcases hdiffer with h | h
      · exact h (UInt32.toNat.inj (hs.length_eq.trans hlen.symm))
      · exact h (hequal rfl)
    rw [decide_eq_false hne]
  · rw [not_or, not_not] at hdiffer
    have hcompare := memcmpEq_stores hs hbytes (by rw [← hs.length_eq, hdiffer.1, hlen])
    rwa [← hlen] at hcompare

/-- A machine with the string in its only slot. -/
def machineOf (string : ObjString) : Machine := ⟨⟨[.obj 0], fun _ => none⟩, fun _ => some string⟩

/-- A text with a `NUL` and with bytes above 127, where `char` has a sign. -/
theorem bytesEqual_high : ∃ string ref, wrenNewStringLength true [200, 0, 255] = some string ∧
    wrenMakeReference true [some 200, some 0, some 255, some 7] 3 = some ref ∧
    wrenGetSlotBytesEqual (machineOf string) 0 ref = some (decide ([200, 0, 255] = ([200, 0, 255] : List UInt8))) := by
  obtain ⟨string, hnew, hs⟩ := wrenNewStringLength_of_lt true (show [200, 0, 255].length < 2 ^ 32 by decide)
  have hslot : (machineOf string).stringIn 0 = some string := rfl
  have hbytes : Block.Starts [some 200, some 0, some 255, some 7] ([200, 0, 255] : List UInt8) := ⟨[some 7], rfl⟩
  obtain ⟨ref, href, hequal, -⟩ := bytesEqual_exact hs hslot hbytes (by decide)
  exact ⟨string, ref, hnew, href, hequal⟩

end Store

end Wrensong.Wren
