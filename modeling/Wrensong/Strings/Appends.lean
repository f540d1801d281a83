import Wrensong.Lib.Transition
import Wrensong.Strings.Defs

/-!
# Growable strings hold what was appended

`bstringInit_holds` and `bstringAppend_holds` say what one call does; `contents_of_calls` carries the invariant `Holds`
over any sequence of calls. The doubling `capacity * 2` may wrap: the product is then at most the new length, and the
second comparison puts the exact size in its place (`newCap_fits`).
-/

namespace Wrensong.Strings

open Wrensong.Lib Wrensong.Lib.Bytes

variable {ok : Bool} {b b' : Bstring} {t : List UInt8} {n : UInt64} {c : UInt32} {s : CString}

/-- The new capacity is above the length, and it fits in 32 bits if the length and the terminator do. -/
lemma newCap_fits (h : n.toNat + 1 < 2 ^ 32) :
    n.toNat < (newCap c n).toNat ∧ (newCap c n).toUInt32.toNat = (newCap c n).toNat := by
  have hc := (c * 2).toNat_lt
  unfold newCap
  dsimp only
  split_ifs with hx
  · rw [UInt64.toNat_toUInt32, UInt64.toNat_add]
    simp only [UInt64.toNat_one]
    omega
  · rw [ge_iff_le, UInt64.le_iff_toNat_le, UInt32.toNat_toUInt64] at hx
    rw [UInt64.toNat_toUInt32, UInt32.toNat_toUInt64]
    omega

/-- There is no room where `realloc` fails, and it is called if the length reaches the capacity. -/
lemma makeRoom_eq_none : makeRoom ok b n = none ↔ ok = false ∧ b.capacity.toNat ≤ n.toNat := by
  have hle : n ≥ b.capacity.toUInt64 ↔ b.capacity.toNat ≤ n.toNat := by
    rw [ge_iff_le, UInt64.le_iff_toNat_le, UInt32.toNat_toUInt64]
  unfold makeRoom
  rw [← hle]
  by_cases h : n ≥ b.capacity.toUInt64 <;> cases ok <;> simp [h]

/-- Room for `n` bytes and the terminator: the capacity is above `n`, and what the block starts with stays. -/
lemma makeRoom_sized (hb : b.Sized) (hle : b.length.toNat ≤ n.toNat) (hfit : ok = true → n.toNat + 1 < 2 ^ 32)
    (h : makeRoom ok b n = some b') :
    b'.Sized ∧ b'.length = b.length ∧ n.toNat < b'.capacity.toNat ∧
      ∀ t, t.length ≤ n.toNat → b.data.Starts t → b'.data.Starts t := by
  unfold makeRoom at h
  split at h
  · cases ok
    · cases h
    · obtain ⟨hlt, hcap⟩ := newCap_fits (c := b.capacity) (hfit rfl)
      dsimp only at h
      generalize newCap b.capacity n = size at h hlt hcap
      cases h
      refine ⟨⟨?_, ?_⟩, rfl, ?_, fun t ht hst => hst.realloc (by omega)⟩
      · rw [UInt32.lt_iff_toNat_lt]
        dsimp only
        omega
      · rw [Block.length_realloc]
        exact hcap.symm
      · dsimp only
        omega
  · rename_i hlt
    cases h
    rw [ge_iff_le, UInt64.le_iff_toNat_le, UInt32.toNat_toUInt64] at hlt
    exact ⟨hb, rfl, by omega, fun t _ hst => hst⟩

/-- The two stores of `bstring_append`, where there is room for them. -/
lemma stores_sized (hb : b.Sized) (hn : n.toNat = b.length.toNat + s.val.length) (hroom : n.toNat < b.capacity.toNat) :
    ∃ d d', b.data.store b.length.toNat s.val = some d ∧ d.store n.toNat [NUL] = some d' ∧
      d'.length = b.capacity.toNat ∧ n.toUInt32.toNat = n.toNat ∧
      ∀ t, t.length = b.length.toNat → b.data.Starts t → d'.Starts (t ++ s.val ++ [NUL]) := by
  have hblock := hb.block
  have hcap := b.capacity.toNat_lt
  obtain ⟨d, hd⟩ := (Block.store_isSome (b := b.data) (i := b.length.toNat) (l := s.val)).2 (by omega)
  have hdlen := Block.length_store hd
  obtain ⟨d', hd'⟩ := (Block.store_isSome (b := d) (i := n.toNat) (l := [NUL])).2 (by simp; omega)
  refine ⟨d, d', hd, hd', by rw [Block.length_store hd', hdlen, hblock], ?_, fun t ht hst => ?_⟩
  · rw [UInt64.toNat_toUInt32]
    omega
  · have hts : (t ++ s.val).length = n.toNat := by rw [List.length_append, ht, hn]
    rw [← ht] at hd
    rw [← hts] at hd'
    exact (hst.store hd).store hd'

lemma strlen_toNat (h : s.val.length < 2 ^ 64) : (strlen s).toNat = s.val.length := by
  unfold strlen
  rw [UInt64.toNat_ofNat']
  omega

/-- A call of `bstring_append`: the string, and whether the allocation it may make succeeds. -/
structure Call where
  str : CString
  ok : Bool
  deriving DecidableEq

/-- **The calls that append**: the allocation succeeds, or there is room without one. -/
def Takes (b : Bstring) (c : Call) : Prop :=
  c.ok = true ∨ b.length.toNat + c.str.val.length < b.capacity.toNat

instance (b : Bstring) (c : Call) : Decidable (Takes b c) := inferInstanceAs (Decidable (_ ∨ _))

/-- **One call**: it succeeds and records the true sizes, or its allocation fails and nothing changes. The sum of the
lengths is a `size_t`, and it leaves room for the terminator in 32 bits where the allocation succeeds. -/
theorem bstringAppend_sized (hb : b.Sized) (hsize : b.length.toNat + s.val.length < 2 ^ 64)
    (hfit : ok = true → b.length.toNat + s.val.length + 1 < 2 ^ 32) :
    (Takes b ⟨s, ok⟩ ∧ ∃ b', bstringAppend ok b s = some (true, b') ∧ b'.Sized ∧
      b'.length.toNat = b.length.toNat + s.val.length ∧
      ∀ t, t.length = b.length.toNat → b.data.Starts t → b'.data.Starts (t ++ s.val ++ [NUL])) ∨
    ¬ Takes b ⟨s, ok⟩ ∧ bstringAppend ok b s = some (false, b) := by
  have hs := strlen_toNat (s := s) (by omega)
  have hn : (b.length.toUInt64 + strlen s).toNat = b.length.toNat + s.val.length := by
    rw [UInt64.toNat_add, UInt32.toNat_toUInt64, hs]
    omega
  unfold bstringAppend
  cases hroom : makeRoom ok b (b.length.toUInt64 + strlen s) with
  | none =>
    refine Or.inr ⟨?_, by simp only [hroom]⟩
    rw [makeRoom_eq_none, hn] at hroom
    rintro (hok | hlt)
    · exact absurd (hroom.1.symm.trans hok) (by decide)
    · exact absurd hlt (by dsimp only; omega)
  | some b1 =>
    have htakes : Takes b ⟨s, ok⟩ := by
      cases hok : ok
      · refine Or.inr (Nat.lt_of_not_le fun hle => ?_)
        rw [makeRoom_eq_none.2 ⟨hok, by rwa [hn]⟩] at hroom
        cases hroom
      · exact Or.inl rfl
    obtain ⟨hb1, hlen, hlt, hkeep⟩ := makeRoom_sized hb (by omega) (by rwa [hn]) hroom
    obtain ⟨d, d', hd, hd', hdlen, h32, hst⟩ := stores_sized (s := s) hb1 (by rw [hn, hlen]) hlt
    refine Or.inl ⟨htakes, ?_⟩
    simp only [hroom, hs, List.take_length, hd, hd', Option.bind_eq_bind, Option.bind_some, Option.pure_def]
    refine ⟨_, rfl, ⟨?_, hdlen⟩, by rw [h32, hn], fun t ht h => ?_⟩
    · rw [UInt32.lt_iff_toNat_lt, h32]
      exact hlt
    · exact hst t (by rw [ht, hlen]) (hkeep t (by omega) h)

/-- One call on a string with contents. -/
theorem bstringAppend_holds (hb : b.Holds t) (hsize : t.length + s.val.length < 2 ^ 64)
    (hfit : ok = true → t.length + s.val.length + 1 < 2 ^ 32) :
    (Takes b ⟨s, ok⟩ ∧ ∃ b', bstringAppend ok b s = some (true, b') ∧ b'.Holds (t ++ s.val)) ∨
      ¬ Takes b ⟨s, ok⟩ ∧ bstringAppend ok b s = some (false, b) := by
  have hlen := hb.length_eq
  rcases bstringAppend_sized (s := s) hb.toSized (by omega) (by rwa [hlen]) with ⟨htakes, b', h, hb', hlen', hst⟩ | h
  · refine Or.inl ⟨htakes, b', h, hb', ?_, hst t hlen.symm (hb.starts.of_isPrefix (List.prefix_append _ _))⟩
    rw [hlen', hlen, List.length_append]
  · exact Or.inr h

/-! ### The first string -/

/-- The bytes of the initial string. -/
def initial (s : Option CString) : List UInt8 := (s.map CString.val).getD []

section Init

variable {s : Option CString}

lemma initLength_toNat (h : (initial s).length < 2 ^ 32) : (initLength s).toNat = (initial s).length := by
  cases s with
  | none => rfl
  | some s =>
    change s.val.length < 2 ^ 32 at h
    change (strlen s).toUInt32.toNat = s.val.length
    rw [UInt64.toNat_toUInt32, strlen_toNat (by omega)]
    omega

lemma initLength_lt_initCapacity (h : (initLength s).toNat + 1 < 2 ^ 32) : initLength s < initCapacity c s := by
  unfold initCapacity
  dsimp only
  split_ifs with h1 h2 h2
  · rw [UInt32.lt_iff_toNat_lt, UInt32.toNat_add]
    simp only [UInt32.toNat_one]
    omega
  · exact UInt32.not_le.1 h2
  · rw [UInt32.lt_iff_toNat_lt, UInt32.toNat_add]
    simp only [UInt32.toNat_one]
    omega
  · exact UInt32.not_le.1 h2

lemma copyInitial_starts {d : Block UInt8} (hlen : (initLength s).toNat = (initial s).length)
    (hle : (initial s).length ≤ d.length) :
    ∃ d', copyInitial d s = some d' ∧ d'.length = d.length ∧ d'.Starts (initial s) := by
  cases s with
  | none => exact ⟨d, rfl, rfl, Block.starts_nil⟩
  | some s =>
    change s.val.length ≤ d.length at hle
    obtain ⟨d', hd'⟩ := (Block.store_isSome (b := d) (i := 0) (l := s.val)).2 (by omega)
    refine ⟨d', ?_, Block.length_store hd', Block.starts_nil.store hd'⟩
    change d.store 0 (s.val.take (initLength (some s)).toNat) = some d'
    rw [hlen]
    change d.store 0 (s.val.take s.val.length) = some d'
    rw [List.take_length, hd']

/-- **The first call**: `NULL` where an allocation fails, and else the initial string. -/
theorem bstringInit_holds (structOk dataOk : Bool) (c : UInt32) (hfit : (initial s).length + 1 < 2 ^ 32) :
    (structOk && dataOk) = false ∧ bstringInit structOk dataOk c s = some none ∨
      ∃ b, bstringInit structOk dataOk c s = some (some b) ∧ b.Holds (initial s) := by
  have hlen := initLength_toNat (s := s) (by omega)
  have hlt := UInt32.lt_iff_toNat_lt.1 (initLength_lt_initCapacity (c := c) (s := s) (by omega))
  cases structOk
  · exact Or.inl ⟨rfl, rfl⟩
  cases dataOk
  · exact Or.inl ⟨rfl, rfl⟩
  right
  obtain ⟨d, hd, hdlen, hstarts⟩ := copyInitial_starts (d := Block.malloc (initCapacity c s).toNat) hlen (by
    rw [Block.length_malloc]
    omega)
  rw [Block.length_malloc] at hdlen
  obtain ⟨d', hd'⟩ := (Block.store_isSome (b := d) (i := (initLength s).toNat) (l := [NUL])).2 (by
    rw [hdlen]
    exact hlt)
  refine ⟨⟨d', initLength s, initCapacity c s⟩, ?_, ⟨hlt, ?_⟩, hlen, ?_⟩
  · simp [bstringInit, hd, hd']
  · rw [Block.length_store hd', hdlen]
  · rw [hlen] at hd'
    exact hstarts.store hd'

end Init

/-! ### Any sequence of calls -/

/-- The calls one after the other: what they returned, and the string in the end. -/
def appends (b : Bstring) : List Call → Option (List Bool × Bstring)
  | [] => some ([], b)
  | c :: cs => do
    let (r, b) ← bstringAppend c.ok b c.str
    let (rs, b) ← appends b cs
    pure (r :: rs, b)

/-- The strings of the calls that returned true. -/
def accepted : List Call → List Bool → List UInt8
  | c :: cs, r :: rs => (if r then c.str.val else []) ++ accepted cs rs
  | _, _ => []

/-- The state after a call. -/
def call (b : Bstring) (c : Call) : Option Bstring := (bstringAppend c.ok b c.str).map Prod.snd

/-- The length that a call asks for is a `size_t`, and together with the terminator it is below `2 ^ 32`, unless the
allocation fails. -/
def Fits (b : Bstring) (c : Call) : Prop :=
  b.length.toNat + c.str.val.length < 2 ^ 64 ∧ (c.ok = true → b.length.toNat + c.str.val.length + 1 < 2 ^ 32)

instance (b : Bstring) (c : Call) : Decidable (Fits b c) := inferInstanceAs (Decidable (_ ∧ _))

section Calls

variable {cs : List Call} {rs : List Bool}

lemma appends_cons {c : Call} {r : Bool} (h1 : bstringAppend c.ok b c.str = some (r, b')) :
    appends b (c :: cs) = (appends b' cs).map fun p => (r :: p.1, p.2) := by
  simp only [appends, h1, Option.bind_eq_bind, Option.bind_some, Option.pure_def]
  cases appends b' cs <;> rfl

lemma guarded_cons {c : Call} {r : Bool} (h1 : bstringAppend c.ok b c.str = some (r, b')) :
    Transition.Guarded call Fits b (c :: cs) ↔ Fits b c ∧ Transition.Guarded call Fits b' cs := by
  have hcall : call b c = some b' := by simp [call, h1]
  rw [Transition.Guarded, hcall]

/-- The calls of a sequence each append their string or change nothing. -/
lemma appends_holds (hb : b.Holds t) (hg : Transition.Guarded call Fits b cs) :
    ∃ rs b', appends b cs = some (rs, b') ∧ b'.Holds (t ++ accepted cs rs) := by
  induction cs generalizing b t with
  | nil => exact ⟨[], b, rfl, by simpa [accepted] using hb⟩
  | cons c cs ih =>
    have hfit : Fits b c := hg.1
    unfold Fits at hfit
    rw [hb.length_eq] at hfit
    rcases bstringAppend_holds hb hfit.1 hfit.2 with ⟨-, b1, h1, hb1⟩ | ⟨-, h1⟩
    · obtain ⟨rs, b', h2, hb'⟩ := ih hb1 ((guarded_cons h1).1 hg).2
      refine ⟨true :: rs, b', by rw [appends_cons h1, h2]; rfl, ?_⟩
      rw [accepted, if_pos rfl, ← List.append_assoc]
      exact hb'
    · obtain ⟨rs, b', h2, hb'⟩ := ih hb ((guarded_cons h1).1 hg).2
      exact ⟨false :: rs, b', by rw [appends_cons h1, h2]; rfl, hb'⟩

/-- A call that returns false changes nothing. -/
lemma bstringAppend_false {c : Call} (h : bstringAppend c.ok b c.str = some (false, b')) : b' = b := by
  unfold bstringAppend at h
  dsimp only at h
  split at h
  · cases h
    rfl
  · simp only [Option.bind_eq_bind, Option.bind_eq_some_iff, Option.pure_def, Option.some.injEq, Prod.mk.injEq] at h
    obtain ⟨_, _, _, _, hfalse, _⟩ := h
    cases hfalse

end Calls

/-- A call that fits returns, and it returns true if it appends. -/
lemma bstringAppend_iff {c : Call} (hb : b.Holds t) (hfit : Fits b c) :
    ∃ r b', bstringAppend c.ok b c.str = some (r, b') ∧ (r = true ↔ Takes b c) := by
  unfold Fits at hfit
  rw [hb.length_eq] at hfit
  rcases bstringAppend_holds hb hfit.1 hfit.2 with ⟨htakes, b', h, -⟩ | ⟨htakes, h⟩
  · exact ⟨true, b', h, iff_of_true rfl htakes⟩
  · exact ⟨false, b, h, iff_of_false (by decide) htakes⟩

/-- **The invariant of a growable string**: whatever the initial capacity and string, the outcomes of the allocations and
the calls, no store lies outside the block, and after each call the string holds the initial string and the strings of the
calls that returned true. A call returns true if there is room or its allocation succeeds, and one that returns false changes
nothing. -/
theorem contents_of_calls (structOk dataOk : Bool) (capacity : UInt32) (s : Option CString) (cs : List Call)
    (hinit : (initial s).length + 1 < 2 ^ 32) :
    (structOk && dataOk) = false ∧ bstringInit structOk dataOk capacity s = some none ∨
      ∃ b, bstringInit structOk dataOk capacity s = some (some b) ∧ b.Holds (initial s) ∧
        (Transition.Guarded call Fits b cs → ∀ pre, pre <+: cs → ∃ rs b', appends b pre = some (rs, b') ∧
          b'.Holds (initial s ++ accepted pre rs) ∧
          (∀ (c : Call) b'', bstringAppend c.ok b' c.str = some (false, b'') → b'' = b') ∧
          ∀ c, Fits b' c → ∃ r b'', bstringAppend c.ok b' c.str = some (r, b'') ∧ (r = true ↔ Takes b' c)) := by
  rcases bstringInit_holds structOk dataOk capacity hinit with h | ⟨b, h, hb⟩
  · exact Or.inl h
  · refine Or.inr ⟨b, h, hb, fun hg pre hpre => ?_⟩
    obtain ⟨rs, b', h1, hb'⟩ := appends_holds hb (hg.of_isPrefix hpre)
    exact ⟨rs, b', h1, hb', fun c b'' => bstringAppend_false, fun c => bstringAppend_iff hb'⟩

/-- Room for three bytes at first, a call whose allocation fails, one that grows the block and one that needs no allocation. -/
def someCalls : List Call :=
  [⟨.ofBlock (bytes "cdef"), false⟩, ⟨.ofBlock (bytes "cde"), true⟩, ⟨.ofBlock (bytes "f"), false⟩]

theorem contents_of_someCalls : ∃ b, bstringInit true true 4 (some (.ofBlock (bytes "ab"))) = some (some b) ∧
    ∃ b', appends b someCalls = some ([false, true, true], b') ∧ b'.Holds (bytes "abcdef") := by
  have hinit : (initial (some (.ofBlock (bytes "ab")))).length + 1 < 2 ^ 32 := by decide
  rcases contents_of_calls true true 4 (some (.ofBlock (bytes "ab"))) someCalls hinit with ⟨h, -⟩ | ⟨b, h, -, hrun⟩
  · cases h
  · have hb : bstringInit true true 4 (some (.ofBlock (bytes "ab"))) =
        some (some ⟨[some 97, some 98, some 0, none], 2, 4⟩) := by decide +kernel
    rw [hb] at h
    cases h
    have hg : Transition.Guarded call Fits ⟨[some 97, some 98, some 0, none], 2, 4⟩ someCalls := by decide +kernel
    obtain ⟨rs, b', h1, hb', -, -⟩ := hrun hg someCalls List.prefix_rfl
    have hrs : (appends ⟨[some 97, some 98, some 0, none], 2, 4⟩ someCalls).map Prod.fst = some [false, true, true] := by
      decide +kernel
    rw [h1, Option.map_some, Option.some.injEq] at hrs
    obtain rfl : rs = [false, true, true] := hrs
    exact ⟨_, hb, b', h1, hb'⟩

end Wrensong.Strings
