import Wrensong.Lib.Block
import Wrensong.Lib.Bytes

/-!
# The growable string

`bstring_init` and `bstring_append` with the integer types of the source: the fields of a `Bstring` are `unsigned int`,
the lengths that `bstring_append` computes are `size_t`, of 64 bits. Whether an allocation succeeds is an argument. A
store outside the block has no result (`none`); `NULL` is the result `some none`.
-/

namespace Wrensong.Strings

open Wrensong.Lib Wrensong.Lib.Bytes

/-- `struct Bstring`, with the block that `data` points to. -/
structure Bstring where
  data : Block UInt8
  length : UInt32
  capacity : UInt32
  deriving DecidableEq

/-- `BSTRING_INIT_CAPACITY` -/
def bstringInitCapacity : UInt32 := 16

/-- `strlen` -/
def strlen (s : CString) : UInt64 := .ofNat s.val.length

/-- `slen` of `bstring_init`. -/
def initLength (s : Option CString) : UInt32 :=
  match s with
  | none => 0
  | some s => (strlen s).toUInt32

/-- The capacity that `bstring_init` asks for. -/
def initCapacity (capacity : UInt32) (s : Option CString) : UInt32 :=
  let capacity := if capacity = 0 then bstringInitCapacity else capacity
  if initLength s ≥ capacity then initLength s + 1 else capacity

/-- The copy of the initial string into its block, if it is not `NULL`. -/
def copyInitial (data : Block UInt8) : Option CString → Option (Block UInt8)
  | none => some data
  | some s => data.store 0 (s.val.take (initLength (some s)).toNat)

/-- `bstring_init`. The outcomes are those of the allocation of the structure and of the block. -/
def bstringInit (structOk dataOk : Bool) (capacity : UInt32) (s : Option CString) : Option (Option Bstring) :=
  if structOk = false then some none
  else
    let slen := initLength s
    let capacity := initCapacity capacity s
    if dataOk = false then some none
    else do
      let data ← copyInitial (Block.malloc capacity.toNat) s
      let data ← data.store slen.toNat [NUL]
      pure (some ⟨data, slen, capacity⟩)

/-- The size that `bstring_append` asks for. The doubling is a product of two `unsigned int`. -/
def newCap (capacity : UInt32) (newLen : UInt64) : UInt64 :=
  let doubled := (capacity * 2).toUInt64
  if newLen ≥ doubled then newLen + 1 else doubled

/-- The part of `bstring_append` that makes room for `newLen` bytes and the terminator; `none` where `realloc` fails. -/
def makeRoom (ok : Bool) (self : Bstring) (newLen : UInt64) : Option Bstring :=
  if newLen ≥ self.capacity.toUInt64 then
    let size := newCap self.capacity newLen
    if ok then some { self with data := self.data.realloc size.toNat, capacity := size.toUInt32 } else none
  else some self

/-- `bstring_append`, with the outcome of its `realloc`. -/
def bstringAppend (ok : Bool) (self : Bstring) (s : CString) : Option (Bool × Bstring) :=
  let slen := strlen s
  let newLen : UInt64 := self.length.toUInt64 + slen
  match makeRoom ok self newLen with
  | none => some (false, self)
  | some self => do
    let data ← self.data.store self.length.toNat (s.val.take slen.toNat)
    let data ← data.store newLen.toNat [NUL]
    pure (true, { self with data := data, length := newLen.toUInt32 })

/-! ### What a string holds -/

/-- The length is below the capacity, and the block has `capacity` bytes. -/
structure Bstring.Sized (b : Bstring) : Prop where
  length_lt : b.length < b.capacity
  block : b.data.length = b.capacity.toNat

/-- **The invariant**, with the contents `t`: the block starts with them and a `NUL`, and they are `length` bytes. -/
structure Bstring.Holds (b : Bstring) (t : List UInt8) : Prop extends b.Sized where
  length_eq : b.length.toNat = t.length
  starts : b.data.Starts (t ++ [NUL])

end Wrensong.Strings
