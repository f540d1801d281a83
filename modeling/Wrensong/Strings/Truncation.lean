import Wrensong.Strings.Appends

/-!
# Lengths that do not fit in 32 bits

The lengths of a `Bstring` are computed in 64 bits and stored in 32. `sizes_exact_iff` says when a call records the true
length and the true size of the block, whatever the allocator does: exactly if the new length and the terminator fit in
32 bits. Beyond that nothing is refused. From `2 ^ 32` on the length is cut down, and at `2 ^ 32 - 1` it is the capacity
that is: it becomes 0.
-/

namespace Wrensong.Strings

open Wrensong.Lib Wrensong.Lib.Bytes

/-- The recorded length is `n`, and the recorded capacity is the size of the block. -/
def Bstring.TrueSizes (b : Bstring) (n : ℕ) : Prop := b.length.toNat = n ∧ b.capacity.toNat = b.data.length

/-- Whether its allocation succeeds or not, the call appends the string and records the true sizes, or it returns false and
changes nothing. -/
def AppendExact (b : Bstring) (s : CString) : Prop :=
  ∀ ok, ∃ r b', bstringAppend ok b s = some (r, b') ∧
    if r then b'.TrueSizes (b.length.toNat + s.val.length) else b' = b

/-- Whether its allocations succeed or not, the call returns `NULL` or a string with the true sizes. -/
def InitExact (capacity : UInt32) (s : Option CString) : Prop :=
  ∀ structOk dataOk, ∃ r, bstringInit structOk dataOk capacity s = some r ∧
    ∀ b, r = some b → b.TrueSizes (initial s).length

section Append

variable {b b' : Bstring} {s : CString} {n : UInt64} {c : UInt32}

lemma appendExact_of_lt (hb : b.Sized) (h : b.length.toNat + s.val.length + 1 < 2 ^ 32) : AppendExact b s := by
  intro ok
  rcases bstringAppend_sized hb (by omega) (fun _ : ok = true => h) with ⟨-, b', h1, hb', hlen, -⟩ | ⟨-, h1⟩
  · exact ⟨true, b', h1, hlen, hb'.block.symm⟩
  · exact ⟨false, b, h1, rfl⟩

/-- Where the doubled capacity is not enough, the size is the exact one, and it is cut down to 0. -/
lemma newCap_wraps (h : n.toNat = 2 ^ 32 - 1) : (newCap c n).toNat = 2 ^ 32 ∧ (newCap c n).toUInt32.toNat = 0 := by
  have hle : n ≥ (c * 2).toUInt64 := by
    have := (c * 2).toNat_lt
    rw [ge_iff_le, UInt64.le_iff_toNat_le, UInt32.toNat_toUInt64]
    omega
  unfold newCap
  dsimp only
  rw [if_pos hle, UInt64.toNat_toUInt32, UInt64.toNat_add, h]
  exact ⟨rfl, rfl⟩

/-- What a successful call leaves behind. -/
lemma bstringAppend_true {ok : Bool} (h : bstringAppend ok b s = some (true, b')) :
    ∃ b1, makeRoom ok b (b.length.toUInt64 + strlen s) = some b1 ∧
      b'.length = (b.length.toUInt64 + strlen s).toUInt32 ∧ b'.capacity = b1.capacity ∧
      b'.data.length = b1.data.length := by
  unfold bstringAppend at h
  dsimp only at h
  split at h
  · cases h
  · rename_i b1 hroom
    simp only [Option.bind_eq_bind, Option.bind_eq_some_iff, Option.pure_def, Option.some.injEq, Prod.mk.injEq,
      true_and] at h
    obtain ⟨d, hd, d', hd', rfl⟩ := h
    exact ⟨b1, hroom, rfl, rfl, by rw [Block.length_store hd', Block.length_store hd]⟩

/-- A successful call with the true length had a length below `2 ^ 32`. At `2 ^ 32 - 1` its capacity is not the true one. -/
lemma lt_of_trueSizes (h : bstringAppend true b s = some (true, b'))
    (hsizes : b'.TrueSizes (b.length.toNat + s.val.length)) : b.length.toNat + s.val.length + 1 < 2 ^ 32 := by
  obtain ⟨b1, hroom, hlen, hcap, hdata⟩ := bstringAppend_true h
  obtain ⟨h1, h2⟩ := hsizes
  have hlt := b'.length.toNat_lt
  by_contra hge
  have hmax : b.length.toNat + s.val.length = 2 ^ 32 - 1 := by omega
  have hn : (b.length.toUInt64 + strlen s).toNat = 2 ^ 32 - 1 := by
    rw [UInt64.toNat_add, UInt32.toNat_toUInt64, strlen_toNat (by omega), hmax]
    rfl
  obtain ⟨hsize, hwrap⟩ := newCap_wraps (c := b.capacity) hn
  have hgrow : b.length.toUInt64 + strlen s ≥ b.capacity.toUInt64 := by
    have := b.capacity.toNat_lt
    rw [ge_iff_le, UInt64.le_iff_toNat_le, UInt32.toNat_toUInt64, hn]
    omega
  unfold makeRoom at hroom
  rw [if_pos hgrow] at hroom
  cases hroom
  rw [hcap, hdata] at h2
  dsimp only at h2
  rw [hwrap, Block.length_realloc, hsize] at h2
  omega

lemma lt_of_appendExact (h : AppendExact b s) : b.length.toNat + s.val.length + 1 < 2 ^ 32 := by
  obtain ⟨r, b', h1, h2⟩ := h true
  cases r
  · unfold bstringAppend at h1
    dsimp only at h1
    split at h1
    · rename_i hroom
      exact absurd (makeRoom_eq_none.1 hroom).1 (by decide)
    · simp [Option.bind_eq_some_iff] at h1
  · exact lt_of_trueSizes h1 h2

end Append

section Init

variable {c : UInt32} {s : Option CString}

lemma initExact_of_lt (h : (initial s).length + 1 < 2 ^ 32) : InitExact c s := by
  intro structOk dataOk
  rcases bstringInit_holds structOk dataOk c h with ⟨-, h1⟩ | ⟨b, h1, hb⟩
  · exact ⟨none, h1, fun b hb => by cases hb⟩
  · refine ⟨some b, h1, fun b' hb' => ?_⟩
    cases hb'
    exact ⟨hb.length_eq, hb.block.symm⟩

/-- The length that is recorded is cut down to 32 bits. At `2 ^ 32 - 1` the block is empty, and the first store is outside. -/
lemma lt_of_initExact (h : InitExact c s) : (initial s).length + 1 < 2 ^ 32 := by
  obtain ⟨r, h1, h2⟩ := h true true
  cases s with
  | none => simp [initial]
  | some s =>
    change s.val.length + 1 < 2 ^ 32
    simp only [bstringInit, Bool.true_eq_false, if_false, Option.bind_eq_bind, Option.bind_eq_some_iff,
      Option.pure_def, Option.some.injEq] at h1
    obtain ⟨d, hd, d', hd', rfl⟩ := h1
    obtain ⟨hlen, -⟩ := h2 _ rfl
    have hlt := (initLength (some s)).toNat_lt
    change (initLength (some s)).toNat = s.val.length at hlen
    by_contra hge
    have hcap : initCapacity c (some s) = 0 := by
      have hmax : ∀ x : UInt32, initLength (some s) ≥ x := by
        intro x
        have hx := x.toNat_lt
        rw [ge_iff_le, UInt32.le_iff_toNat_le]
        omega
      unfold initCapacity
      dsimp only
      rw [if_pos (hmax _)]
      apply UInt32.toNat.inj
      rw [UInt32.toNat_add, hlen, UInt32.toNat_one, UInt32.toNat_zero]
      omega
    rw [hcap] at hd
    have hstore := Block.store_isSome.1 ⟨d, hd⟩
    rw [hlen, List.take_length, Block.length_malloc] at hstore
    have hzero : (0 : UInt32).toNat = 0 := rfl
    omega

end Init

/-- **Exactly when no size is cut down**: the length and its terminator fit in 32 bits. -/
theorem sizes_exact_iff {b : Bstring} (hb : b.Sized) (s : CString) (capacity : UInt32) (first : Option CString) :
    (AppendExact b s ↔ b.length.toNat + s.val.length + 1 < 2 ^ 32) ∧
      (InitExact capacity first ↔ (initial first).length + 1 < 2 ^ 32) :=
  ⟨⟨lt_of_appendExact, appendExact_of_lt hb⟩, ⟨lt_of_initExact, initExact_of_lt⟩⟩

/-- An empty string in a block of one byte. -/
def emptyString : Bstring := ⟨[some NUL], 0, 1⟩

lemma emptyString_sized : emptyString.Sized := ⟨by decide, by decide⟩

theorem sizes_exact_empty : AppendExact emptyString (.ofBlock (bytes "ab")) ∧ InitExact 0 none :=
  have hboth := sizes_exact_iff emptyString_sized (.ofBlock (bytes "ab")) 0 none
  ⟨hboth.1.2 (by decide), hboth.2.2 (by decide)⟩

/-- A string of `n` bytes. -/
def stringOf (n : ℕ) : CString := ⟨List.replicate n 97, fun h => absurd (List.eq_of_mem_replicate h) (by decide)⟩

lemma length_stringOf (n : ℕ) : (stringOf n).val.length = n := List.length_replicate

lemma not_exact_of_le {n : ℕ} (h : 2 ^ 32 ≤ n + 1) :
    ¬ AppendExact emptyString (stringOf n) ∧ ¬ InitExact 16 (some (stringOf n)) := by
  have hlen : (initial (some (stringOf n))).length = n := length_stringOf n
  constructor
  · intro he
    have hlt := lt_of_appendExact he
    rw [length_stringOf] at hlt
    omega
  · intro he
    have hlt := lt_of_initExact he
    omega

/-- A string of `2 ^ 32` bytes is taken for an empty one, by both functions. -/
theorem stringOf_cut : ¬ AppendExact emptyString (stringOf (2 ^ 32)) ∧ ¬ InitExact 16 (some (stringOf (2 ^ 32))) :=
  not_exact_of_le (Nat.le_succ _)

end Wrensong.Strings
