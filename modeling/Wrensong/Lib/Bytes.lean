import Mathlib.Data.List.TakeWhile
import Mathlib.Data.Int.DivMod
import Mathlib.Tactic

/-!
# C strings over lists of bytes

A block of memory is a list of bytes and a C string is the part of a block before its first `NUL`. This file has the
vocabulary the models share:

* `token d l`: the bytes a scan of `l` passes before it meets a `NUL` or the delimiter `d`;
* `cstr l`: the C string at the start of `l`;
* `strncmpEq`, `atoi`: the library functions of the same names, on the contents of C strings.

The lemmas say how a scan runs over a list that is written as `scanned part ++ delimiter :: rest`, and that every list
can be written so.
-/

namespace Wrensong.Lib.Bytes

/-- The bytes of an ASCII literal. -/
def bytes (s : String) : List UInt8 := s.toList.map fun c => c.toNat.toUInt8

abbrev NUL : UInt8 := 0
abbrev LF : UInt8 := 10
abbrev CR : UInt8 := 13
abbrev SP : UInt8 := 32
abbrev COLON : UInt8 := 58

/-! ### Scanning -/

/-- The bytes before the first `NUL` or, if there is one, the delimiter. -/
def token (d : Option UInt8) (l : List UInt8) : List UInt8 :=
  l.takeWhile fun b => b != NUL && some b != d

/-- A scan for `d` passes over every byte of `l`. -/
def Clear (d : Option UInt8) (l : List UInt8) : Prop := ∀ b ∈ l, b ≠ NUL ∧ some b ≠ d

/-- A scan for `d` stops at the first byte of `l`, or `l` is empty. -/
def Stops (d : Option UInt8) (l : List UInt8) : Prop := ∀ b ∈ l.head?, b = NUL ∨ some b = d

instance (d : Option UInt8) (l : List UInt8) : Decidable (Clear d l) := List.decidableBAll _ l

section Scan

variable {d : Option UInt8} {l t u : List UInt8}

@[simp] lemma clear_nil : Clear d [] := by simp [Clear]

@[simp] lemma clear_cons {b : UInt8} : Clear d (b :: l) ↔ (b ≠ NUL ∧ some b ≠ d) ∧ Clear d l := by
  simp [Clear]

@[simp] lemma clear_append : Clear d (l ++ t) ↔ Clear d l ∧ Clear d t := by
  simp only [Clear, List.mem_append]
  constructor
  · intro h
    exact ⟨fun b hb => h b (Or.inl hb), fun b hb => h b (Or.inr hb)⟩
  · rintro ⟨h1, h2⟩ b (hb | hb)
    · exact h1 b hb
    · exact h2 b hb

lemma Clear.noNul (h : Clear d l) : Clear none l := fun b hb => ⟨(h b hb).1, by simp⟩

lemma Clear.of_prefix {y : List UInt8} (h : Clear d l) (hy : y <+: l) : Clear d y := fun b hb => h b (hy.subset hb)

lemma clear_of_notMem {d : UInt8} (h0 : NUL ∉ l) (hd : d ∉ l) : Clear (some d) l := fun _ hb =>
  ⟨fun e => h0 (e ▸ hb), fun e => hd (Option.some.inj e ▸ hb)⟩

lemma token_clear (d : Option UInt8) (l : List UInt8) : Clear d (token d l) := by
  intro b hb
  unfold token at hb
  simpa using List.mem_takeWhile_imp hb

/-- The scanned part of a list written as a clear part and a rest the scan stops at. -/
lemma token_append (hl : Clear d l) (ht : Stops d t) : token d (l ++ t) = l := by
  have h : ∀ b ∈ l, (fun b => b != NUL && some b != d) b = true := fun b hb => by simp [hl b hb]
  unfold token
  rw [List.takeWhile_append_of_pos h]
  cases t with
  | nil => simp
  | cons b t =>
    have hb : ¬ (b != NUL && some b != d) = true := by
      rcases ht b (by simp) with h | h <;> simp [h]
    simp [hb]

/-- A scan does not see a `NUL` that is put behind the list. -/
lemma token_concat_nul (d : Option UInt8) (l : List UInt8) : token d (l ++ [NUL]) = token d l := by
  induction l with
  | nil => rfl
  | cons b l ih =>
    unfold token at ih ⊢
    rw [List.cons_append, List.takeWhile_cons, List.takeWhile_cons, ih]

lemma stops_nul (d : Option UInt8) (t : List UInt8) : Stops d (NUL :: t) := by
  intro b hb
  left
  simpa using hb.symm

lemma stops_delim (d : UInt8) (t : List UInt8) : Stops (some d) (d :: t) := by
  intro b hb
  right
  simpa using hb.symm

lemma stops_none_cons {b : UInt8} : Stops none (b :: t) ↔ b = NUL := by
  simp [Stops]

lemma Stops.of_none (h : Stops none t) : Stops d t := by
  intro b hb
  rcases h b hb with h | h
  · exact Or.inl h
  · exact absurd h (by simp)

/-- **The three shapes of a scan**: it meets the delimiter, a `NUL`, or the end of the list. -/
lemma scan_cases (d : UInt8) (l : List UInt8) :
    ∃ tok, Clear (some d) tok ∧ ((∃ t, l = tok ++ d :: t) ∨ (∃ t, l = tok ++ NUL :: t) ∨ l = tok) := by
  induction l with
  | nil => exact ⟨[], clear_nil, Or.inr (Or.inr rfl)⟩
  | cons b l ih =>
    by_cases hd : b = d
    · exact ⟨[], clear_nil, Or.inl ⟨l, by rw [hd]; rfl⟩⟩
    by_cases h0 : b = NUL
    · exact ⟨[], clear_nil, Or.inr (Or.inl ⟨l, by rw [h0]; rfl⟩)⟩
    obtain ⟨tok, htok, h⟩ := ih
    refine ⟨b :: tok, clear_cons.2 ⟨⟨h0, by simpa using hd⟩, htok⟩, ?_⟩
    rcases h with ⟨t, rfl⟩ | ⟨t, rfl⟩ | rfl
    · exact Or.inl ⟨t, rfl⟩
    · exact Or.inr (Or.inl ⟨t, rfl⟩)
    · exact Or.inr (Or.inr rfl)

/-- The rest behind a scan that met no delimiter, without and with the `NUL` that ends the block. -/
lemma end_of_string (h : (∃ t, l = u ++ NUL :: t) ∨ l = u) :
    ∃ t y, Stops Option.none t ∧ l = u ++ t ∧ t ++ [NUL] = NUL :: y := by
  rcases h with ⟨t, rfl⟩ | rfl
  · exact ⟨NUL :: t, t ++ [NUL], stops_nul _ _, rfl, rfl⟩
  · exact ⟨[], [], by simp [Stops], by simp, rfl⟩

/-- A C string has the delimiter in it, or a scan for the delimiter passes over all of it. -/
lemma Clear.split {d : UInt8} (h : Clear none l) :
    (∃ k r, Clear (some d) k ∧ l = k ++ d :: r) ∨ Clear (some d) l := by
  obtain ⟨tok, htok, ⟨t, rfl⟩ | ⟨t, rfl⟩ | rfl⟩ := scan_cases d l
  · exact Or.inl ⟨tok, t, htok, rfl⟩
  · exact absurd rfl (h NUL (by simp)).1
  · exact Or.inr htok

/-- A prefix of a list that is cut at an element ends before the element or reaches it. -/
lemma prefix_append_cons {α : Type*} {x a b : List α} {c : α} (h : x <+: a ++ c :: b) :
    x <+: a ∨ ∃ y, x = a ++ c :: y ∧ y <+: b := by
  induction a generalizing x with
  | nil =>
    rcases List.prefix_cons_iff.1 h with rfl | ⟨y, rfl, hy⟩
    · exact Or.inl List.nil_prefix
    · exact Or.inr ⟨y, rfl, hy⟩
  | cons d a ih =>
    rcases List.prefix_cons_iff.1 h with rfl | ⟨x, rfl, hx⟩
    · exact Or.inl List.nil_prefix
    · rcases ih hx with hx | ⟨y, rfl, hy⟩
      · exact Or.inl (List.cons_prefix_cons.2 ⟨rfl, hx⟩)
      · exact Or.inr ⟨y, rfl, hy⟩

lemma head?_ne_of_isPrefix {b : UInt8} (h : l.head? ≠ some b) (ht : t <+: l) : t.head? ≠ some b := by
  obtain ⟨u, rfl⟩ := ht
  intro e
  obtain ⟨t', rfl⟩ := List.head?_eq_some_iff.1 e
  exact h rfl

/-- A list is cut at the first byte a scan stops at in one way only. -/
lemma scan_unique {d : Option UInt8} {l l' t t' : List UInt8} (h : l ++ t = l' ++ t') (hl : Clear d l)
    (hl' : Clear d l') (ht : Stops d t) (ht' : Stops d t') : l = l' ∧ t = t' := by
  have e := token_append hl ht
  rw [h, token_append hl' ht'] at e
  subst e
  exact ⟨rfl, List.append_cancel_left h⟩

end Scan

/-! ### C strings -/

/-- The C string at the start of a block. -/
def cstr (l : List UInt8) : List UInt8 := token none l

lemma cstr_append_nul {l : List UInt8} (h : Clear none l) (t : List UInt8) : cstr (l ++ NUL :: t) = l :=
  token_append h (stops_nul _ _)

lemma cstr_clear (l : List UInt8) : Clear none (cstr l) := token_clear _ _

lemma exists_cstr {y : List UInt8} (h : NUL ∈ y) : ∃ t, y = cstr y ++ NUL :: t := by
  obtain ⟨tok, htok, ⟨t, rfl⟩ | ⟨t, rfl⟩ | rfl⟩ := scan_cases NUL y
  · exact ⟨t, by rw [cstr_append_nul htok.noNul]⟩
  · exact ⟨t, by rw [cstr_append_nul htok.noNul]⟩
  · exact absurd rfl (htok _ h).1

lemma cstr_append_of_mem {l : List UInt8} (h : NUL ∈ l) (t : List UInt8) : cstr (l ++ t) = cstr l := by
  obtain ⟨u, hu⟩ := exists_cstr h
  conv_lhs => rw [hu, List.append_assoc, List.cons_append]
  exact cstr_append_nul (cstr_clear l) _

lemma cstr_of_clear {l : List UInt8} (h : Clear none l) : cstr l = l := by
  have := token_append (t := []) h (by simp [Stops])
  rwa [List.append_nil] at this

lemma cstr_append_of_clear {l : List UInt8} (h : Clear none l) (t : List UInt8) : cstr (l ++ t) = l ++ cstr t := by
  unfold cstr token
  exact List.takeWhile_append_of_pos fun b hb => by simp [(h b hb).1]

/-- Zeros behind a string do not change it. -/
lemma cstr_append_zeros (l : List UInt8) (k : ℕ) : cstr (l ++ List.replicate k NUL) = cstr l := by
  by_cases h : NUL ∈ l
  · exact cstr_append_of_mem h _
  · have hc : Clear none l := fun b hb => ⟨fun e => h (e ▸ hb), by simp⟩
    cases k with
    | zero => simp
    | succ k => rw [List.replicate_succ, cstr_append_nul hc, cstr_of_clear hc]

/-- The contents of a C string of its own, such as `strdup` makes. -/
structure CString where
  val : List UInt8
  noNul : NUL ∉ val
  deriving DecidableEq, Repr

/-- The C string at the start of a block. -/
def CString.ofBlock (l : List UInt8) : CString := ⟨cstr l, fun h => (cstr_clear l NUL h).1 rfl⟩

instance : Inhabited CString := ⟨⟨[], by simp⟩⟩

@[ext] lemma CString.ext {a b : CString} (h : a.val = b.val) : a = b := by
  cases a
  cases b
  cases h
  rfl

lemma CString.clear (s : CString) : Clear none s.val := fun _ hb => ⟨fun e => s.noNul (e ▸ hb), by simp⟩

@[simp] lemma CString.ofBlock_val (l : List UInt8) : (CString.ofBlock l).val = cstr l := rfl

@[simp] lemma CString.ofBlock_self (s : CString) : CString.ofBlock s.val = s := CString.ext (cstr_of_clear s.clear)

/-- `strncmp (a, b, n) == 0` for the contents `a` and `b` of two C strings. -/
def strncmpEq (a b : List UInt8) (n : ℕ) : Bool := a.take n == b.take n

/-- A comparison over the length of the literal is a test for a prefix. -/
lemma strncmpEq_prefix {a b : List UInt8} {n : ℕ} (hn : b.length = n) : strncmpEq a b n = true ↔ b <+: a := by
  subst hn
  simp only [strncmpEq, List.take_length, beq_iff_eq]
  constructor
  · intro h
    rw [← h]
    exact List.take_prefix _ _
  · rintro ⟨t, rfl⟩
    simp

/-- A comparison over more bytes than the literal has is a test for equality. -/
lemma strncmpEq_of_lt {a b : List UInt8} {n : ℕ} (hn : b.length < n) : strncmpEq a b n = true ↔ a = b := by
  simp only [strncmpEq, beq_iff_eq]
  rw [List.take_of_length_le (l := b) (by omega)]
  constructor
  · intro h
    have hlen := congrArg List.length h
    rw [List.length_take] at hlen
    rwa [List.take_of_length_le (by omega)] at h
  · rintro rfl
    rw [List.take_of_length_le (by omega)]

/-! ### Numbers in text -/

/-- `isspace` in the C locale. -/
def isSpace (b : UInt8) : Bool := b == SP || (9 ≤ b && b ≤ 13)

/-- `isdigit`. -/
def isDigit (b : UInt8) : Bool := 48 ≤ b && b ≤ 57

/-- The value of a run of decimal digits. -/
def digitsVal (l : List UInt8) : ℕ := l.foldl (fun n b => n * 10 + (b.toNat - 48)) 0

/-- The sign `strtol` reads, and the text behind it. -/
def signOf : List UInt8 → Int × List UInt8
  | 45 :: t => (-1, t)
  | 43 :: t => (1, t)
  | t => (1, t)

/-- `strtol (s, NULL, 10)` with a 64-bit `long`: it saturates. -/
def strtol (s : List UInt8) : Int :=
  let (sign, t) := signOf (s.dropWhile isSpace)
  max (-2 ^ 63) (min (2 ^ 63 - 1) (sign * (digitsVal (t.takeWhile isDigit) : ℕ)))

/-- `atoi`: the result of `strtol`, converted to a 32-bit `int`. -/
def atoi (s : List UInt8) : Int := (strtol s).bmod (2 ^ 32)

example : atoi (bytes " -42x") = -42 := by decide
example : atoi (bytes "4294967297") = 1 := by decide

end Wrensong.Lib.Bytes
