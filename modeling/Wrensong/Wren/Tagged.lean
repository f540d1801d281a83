import Wrensong.Wren.Reference
import Wrensong.Wren.Store

/-!
# Values as 64 bits

A value is a number, or a NaN with a tag, or a NaN with a sign and the address of an object. `wrenValuesEqual` compares the
contents of strings and ranges, and `hashValue` hashes them. Equal keys have equal hashes (`hashValue_eq`), but for
ranges with a zero: zeros with different signs are equal as numbers and differ in their bits. On the other valid keys
(`Keys`) the two agree (`coherent`), and a map with such keys is a partial function (`taggedMap_represents`), which a loop
over the map reads out (`visited_of_run`).
-/

namespace Wrensong.Wren

open Wrensong.Lib Wrensong.Lib.Probe

namespace Tagged

/-- `SIGN_BIT` -/
def signBit : UInt64 := 0x8000000000000000

/-- `QNAN` -/
def qnan : UInt64 := 0x7ffc000000000000

/-- `NULL_VAL` -/
def nullVal : UInt64 := qnan ||| 1

/-- `BOOL_VAL` -/
def boolVal (b : Bool) : UInt64 := qnan ||| if b then 3 else 2

/-- `UNDEFINED_VAL` -/
def undefinedVal : UInt64 := qnan ||| 4

/-- `OBJ_VAL` -/
def objVal (address : UInt64) : UInt64 := signBit ||| qnan ||| address

/-- `IS_NUM` -/
def isNum (v : UInt64) : Bool := v &&& qnan ≠ qnan

/-- `IS_OBJ` -/
def isObj (v : UInt64) : Bool := v &&& (qnan ||| signBit) = qnan ||| signBit

/-- `AS_OBJ` -/
def asObj (v : UInt64) : UInt64 := v &&& ~~~(signBit ||| qnan)

/-- An object, as far as keys are concerned. The numbers are the bits of doubles. -/
inductive Obj
  | string (s : ObjString)
  | range (start stop : UInt64) (isInclusive : Bool)
  | cls (name : ObjString)
  | fn (arity codeCount : UInt64)
  | other
  deriving DecidableEq

/-- The objects, with all strings stored. -/
structure Objects where
  charSigned : Bool
  get : UInt64 → Option Obj
  stored : ∀ {address s}, get address = some (.string s) → ∃ bytes, s.Stores charSigned bytes

/-- `a == b` for doubles. -/
def numEq (a b : UInt64) : Bool :=
  let magnitude := fun x : UInt64 => x &&& 0x7fffffffffffffff
  -- a NaN is equal to nothing
  if magnitude a > 0x7ff0000000000000 ∨ magnitude b > 0x7ff0000000000000 then false
  else a = b ∨ (magnitude a = 0 ∧ magnitude b = 0)

/-- `hashBits`, and `hashNumber` -/
def hashBits (hash : UInt64) : UInt32 :=
  let hash := ~~~hash + (hash <<< 18)
  let hash := hash ^^^ (hash >>> 31)
  let hash := hash * 21
  let hash := hash ^^^ (hash >>> 11)
  let hash := hash + (hash <<< 6)
  let hash := hash ^^^ (hash >>> 22)
  (hash &&& 0x3fffffff).toUInt32

/-- `hashObject` -/
def hashObject : Obj → UInt32
  | .cls name => name.hash
  | .fn arity codeCount => hashBits arity ^^^ hashBits codeCount
  | .range start stop _ => hashBits start ^^^ hashBits stop
  | .string s => s.hash
  | .other => 0

/-- `hashValue` -/
def hashValue (objects : Objects) (v : UInt64) : UInt32 :=
  if isObj v then ((objects.get (asObj v)).map hashObject).getD 0 else hashBits v

/-- `wrenStringEqualsCString` -/
def wrenStringEqualsCString (a : ObjString) (b : Block UInt8) (length : UInt32) : Bool :=
  a.length = length ∧ a.value.memcmpEq b length.toNat = some true

/-- `wrenValuesEqual` -/
def wrenValuesEqual (objects : Objects) (a b : UInt64) : Bool :=
  if a = b then true
  else if !isObj a || !isObj b then false
  else
    match objects.get (asObj a), objects.get (asObj b) with
    | some (.range f t i), some (.range f' t' i') => numEq f f' && numEq t t' && i == i'
    | some (.string s), some (.string s') => s.hash == s'.hash && wrenStringEqualsCString s s'.value s'.length
    | _, _ => false

/-- `wrenMapIsValidKey` -/
def wrenMapIsValidKey (objects : Objects) (v : UInt64) : Bool :=
  v == boolVal true || v == boolVal false || v == nullVal || isNum v ||
    (isObj v && match objects.get (asObj v) with
      | some (.cls _) | some (.range _ _ _) | some (.string _) => true
      | _ => false)

/-- The representation of the machine. -/
def tagged (objects : Objects) : Representation UInt64 where
  undefined := undefinedVal
  null := nullVal
  ofBool := boolVal
  hashValue := hashValue objects
  valuesEqual := wrenValuesEqual objects
  ofBool_injective := by
    intro a b h
    cases a <;> cases b <;> first | rfl | exact absurd h (by decide)

/-! ### Equality -/

section Equality

variable {objects : Objects} {a b c : UInt64} {x y z : UInt64}

lemma numEq_symm (h : numEq x y = true) : numEq y x = true := by
  unfold numEq at *
  simp only at *
  split_ifs at h with hn
  rw [if_neg (by rw [or_comm]; exact hn)]
  simp only [decide_eq_true_eq] at h ⊢
  exact h.imp Eq.symm And.symm

lemma numEq_trans (h : numEq x y = true) (h' : numEq y z = true) : numEq x z = true := by
  unfold numEq at *
  simp only at *
  split_ifs at h with hn
  split_ifs at h' with hn'
  rw [not_or] at hn hn'
  rw [if_neg (not_or.2 ⟨hn.1, hn'.2⟩)]
  simp only [decide_eq_true_eq] at h h' ⊢
  rcases h with rfl | h
  · exact h'
  · rcases h' with rfl | h'
    · exact Or.inr h
    · exact Or.inr ⟨h.1, h'.2⟩

/-- Equal numbers have the same bits, or both are a zero. -/
lemma numEq_cases (h : numEq x y = true) :
    x = y ∨ (x &&& 0x7fffffffffffffff = 0 ∧ y &&& 0x7fffffffffffffff = 0) := by
  unfold numEq at h
  simp only at h
  split_ifs at h
  simpa using h

/-- When two values are equal. -/
inductive Equal (objects : Objects) : UInt64 → UInt64 → Prop
  | same (a : UInt64) : Equal objects a a
  | range {a b start stop start' stop' : UInt64} {i : Bool} (ha : isObj a = true) (hb : isObj b = true)
      (hra : objects.get (asObj a) = some (.range start stop i)) (hrb : objects.get (asObj b) = some (.range start' stop' i))
      (hstart : numEq start start' = true) (hstop : numEq stop stop' = true) : Equal objects a b
  | string {a b : UInt64} {s s' : ObjString} {bytes : List UInt8} (ha : isObj a = true) (hb : isObj b = true)
      (hsa : objects.get (asObj a) = some (.string s)) (hsb : objects.get (asObj b) = some (.string s'))
      (hs : s.Stores objects.charSigned bytes) (hs' : s'.Stores objects.charSigned bytes) : Equal objects a b

/-- A string has one content. -/
lemma Stores.unique {charSigned : Bool} {s : ObjString} {l l' : List UInt8} (h : s.Stores charSigned l)
    (h' : s.Stores charSigned l') : l = l' := by
  have hlen : (l.map some).length = (l'.map some).length := by
    rw [List.length_map, List.length_map, ← h.length_eq, ← h'.length_eq]
  have hle : l.map some <+: l'.map some := List.prefix_of_prefix_length_le h.starts h'.starts hlen.le
  exact List.map_injective_iff.2 (Option.some_injective _) (hle.eq_of_length hlen)

/-- Two strings are equal as the machine compares them if they have the same bytes. -/
lemma stringEquals_iff {charSigned : Bool} {s s' : ObjString} {l l' : List UInt8} (h : s.Stores charSigned l)
    (h' : s'.Stores charSigned l') :
    (s.hash == s'.hash && wrenStringEqualsCString s s'.value s'.length) = true ↔ l = l' := by
  have hlen : s.length = s'.length ↔ l.length = l'.length := by
    rw [← UInt32.toNat_inj, h.length_eq, h'.length_eq]
  simp only [wrenStringEqualsCString, Bool.and_eq_true, beq_iff_eq, decide_eq_true_eq]
  constructor
  · rintro ⟨-, hl, hcmp⟩
    rw [h'.length_eq, memcmpEq_stores h h'.starts (hlen.1 hl)] at hcmp
    simpa using hcmp
  · rintro rfl
    refine ⟨h.hash_fnv1a.trans h'.hash_fnv1a.symm, hlen.2 rfl, ?_⟩
    rw [h'.length_eq, memcmpEq_stores h h'.starts rfl, decide_eq_true rfl]

lemma wrenValuesEqual_iff : wrenValuesEqual objects a b = true ↔ Equal objects a b := by
  constructor
  · intro h
    unfold wrenValuesEqual at h
    split_ifs at h with hab hobj
    · subst hab
      exact .same a
    · simp only [Bool.or_eq_true, Bool.not_eq_true', not_or, Bool.not_eq_false] at hobj
      split at h
      · rename_i hra hrb
        simp only [Bool.and_eq_true, beq_iff_eq] at h
        obtain ⟨⟨hstart, hstop⟩, rfl⟩ := h
        exact .range hobj.1 hobj.2 hra hrb hstart hstop
      · rename_i s s' hsa hsb
        obtain ⟨l, hl⟩ := objects.stored hsa
        obtain ⟨l', hl'⟩ := objects.stored hsb
        obtain rfl := (stringEquals_iff hl hl').1 h
        exact .string hobj.1 hobj.2 hsa hsb hl hl'
      · cases h
  · intro h
    unfold wrenValuesEqual
    split_ifs with hab hobj
    · rfl
    · cases h with
      | same => exact absurd rfl hab
      | range ha hb => simp [ha, hb] at hobj
      | string ha hb => simp [ha, hb] at hobj
    · cases h with
      | same => exact absurd rfl hab
      | range ha hb hra hrb hstart hstop => simp [hra, hrb, hstart, hstop]
      | string ha hb hsa hsb hs hs' =>
        simp only [hsa, hsb]
        exact (stringEquals_iff hs hs').2 rfl

lemma Equal.symm (h : Equal objects a b) : Equal objects b a := by
  cases h with
  | same => exact .same a
  | range ha hb hra hrb hstart hstop => exact .range hb ha hrb hra (numEq_symm hstart) (numEq_symm hstop)
  | string ha hb hsa hsb hs hs' => exact .string hb ha hsb hsa hs' hs

lemma Equal.trans (h : Equal objects a b) (h' : Equal objects b c) : Equal objects a c := by
  cases h with
  | same => exact h'
  | range ha hb hra hrb hstart hstop =>
    cases h' with
    | same => exact .range ha hb hra hrb hstart hstop
    | range hb' hc hrb' hrc hstart' hstop' =>
      rw [hrb] at hrb'
      cases hrb'
      exact .range ha hc hra hrc (numEq_trans hstart hstart') (numEq_trans hstop hstop')
    | string hb' hc hsb hsc hs hs' =>
      rw [hrb] at hsb
      cases hsb
  | string ha hb hsa hsb hs hs' =>
    cases h' with
    | same => exact .string ha hb hsa hsb hs hs'
    | range hb' hc hrb hrc hstart hstop =>
      rw [hsb] at hrb
      cases hrb
    | string hb' hc hsb' hsc ht ht' =>
      rw [hsb] at hsb'
      cases hsb'
      obtain rfl := Stores.unique hs' ht
      exact .string ha hc hsa hsc hs ht'

end Equality

/-! ### Keys and their hashes -/

/-- A double that is not a negative zero. -/
def Plain (x : UInt64) : Prop := x ≠ signBit

/-- A valid key, but for a range with a negative zero. -/
def Keys (objects : Objects) (v : UInt64) : Prop :=
  wrenMapIsValidKey objects v = true ∧
    ∀ start stop i, isObj v = true → objects.get (asObj v) = some (.range start stop i) → Plain start ∧ Plain stop

section Hash

variable {objects : Objects} {a b x y : UInt64}

/-- A zero is positive or negative. -/
lemma zero_cases (h : x &&& 0x7fffffffffffffff = 0) : x = 0 ∨ x = signBit := by
  have hmod : x.toNat % 2 ^ 63 = 0 := by
    have hnat := congrArg UInt64.toNat h
    rw [UInt64.toNat_and] at hnat
    exact (Nat.and_two_pow_sub_one_eq_mod x.toNat 63).symm.trans hnat
  have hlt := x.toNat_lt
  rcases (by omega : x.toNat = 0 ∨ x.toNat = 2 ^ 63) with h0 | h63
  · exact Or.inl (UInt64.toNat_inj.1 h0)
  · exact Or.inr (UInt64.toNat_inj.1 h63)

lemma numEq_plain (h : numEq x y = true) (hx : Plain x) (hy : Plain y) : x = y := by
  rcases numEq_cases h with rfl | ⟨h1, h2⟩
  · rfl
  · rcases zero_cases h1 with rfl | rfl
    · rcases zero_cases h2 with rfl | rfl
      · rfl
      · exact absurd rfl hy
    · exact absurd rfl hx

/-- **Equal keys have equal hashes.** -/
lemma hashValue_eq (ha : Keys objects a) (hb : Keys objects b) (h : Equal objects a b) :
    hashValue objects a = hashValue objects b := by
  cases h with
  | same => rfl
  | range hoa hob hra hrb hstart hstop =>
    obtain ⟨hs, ht⟩ := ha.2 _ _ _ hoa hra
    obtain ⟨hs', ht'⟩ := hb.2 _ _ _ hob hrb
    have e1 := numEq_plain hstart hs hs'
    have e2 := numEq_plain hstop ht ht'
    simp [hashValue, hoa, hob, hra, hrb, hashObject, e1, e2]
  | string hoa hob hsa hsb hs hs' =>
    simp [hashValue, hoa, hob, hsa, hsb, hashObject, hs.hash_fnv1a, hs'.hash_fnv1a]

/-- The comparison and the hash fit together on these keys. -/
lemma coherent (objects : Objects) : Coherent (tagged objects).valuesEqual (tagged objects).hash (Keys objects) where
  refl a := wrenValuesEqual_iff.2 (.same a)
  symm h := wrenValuesEqual_iff.2 (wrenValuesEqual_iff.1 h).symm
  trans h h' := wrenValuesEqual_iff.2 ((wrenValuesEqual_iff.1 h).trans (wrenValuesEqual_iff.1 h'))
  hash_eq ha hb h := congrArg UInt32.toNat (hashValue_eq ha hb (wrenValuesEqual_iff.1 h))

lemma not_keys_undefined : ¬ Keys objects (tagged objects).undefined := by
  intro h
  have hvalid := h.1
  have hnot : isObj undefinedVal = false := by decide
  have hnum : isNum undefinedVal = false := by decide
  simp only [tagged, wrenMapIsValidKey, hnot, hnum, Bool.false_and, Bool.or_false, Bool.or_eq_true, beq_iff_eq] at hvalid
  rcases hvalid with (h | h) | h <;> exact absurd h (by decide)

end Hash

/-- **A map of the machine is a partial function** on the valid keys but for ranges with a negative zero. -/
theorem taggedMap_represents (objects : Objects) {ops : List (Op UInt64)}
    (hk : ∀ op ∈ ops, ∀ k ∈ op.key?, Keys objects k)
    (hfit : Transition.Guarded (Session.step (tagged objects)) Session.Fits {} ops) :
    ∃ s, Transition.run (Session.step (tagged objects)) {} ops = some s ∧
      s.answers = (Dictionary.run (tagged objects) ops).answers ∧
      s.map.Represents (tagged objects) (Keys objects) (Dictionary.run (tagged objects) ops).f :=
  represents_of_run (coherent objects) not_keys_undefined hk hfit

/-- The objects of the ranges `0..1` and `-0..1`, at 8 and 16. -/
def zeroRanges : Objects where
  charSigned := true
  get := fun address =>
    if address = 8 then some (.range 0 0x3ff0000000000000 true)
    else if address = 16 then some (.range signBit 0x3ff0000000000000 true)
    else none
  stored := by
    intro address s h
    split_ifs at h <;> cases h

/-- A key is set, replaced, read and taken out. -/
def fewCalls : List (Op UInt64) :=
  [.set nullVal (boolVal true), .set 0x3ff0000000000000 nullVal, .set nullVal (boolVal false), .get nullVal,
    .removeKey 0x3ff0000000000000, .get 0x3ff0000000000000]

theorem taggedMap_represents_fewCalls : ∃ s, Transition.run (Session.step (tagged zeroRanges)) {} fewCalls = some s ∧
    s.answers = [boolVal false, nullVal, undefinedVal] := by
  have hk : ∀ op ∈ fewCalls, ∀ k ∈ op.key?, Keys zeroRanges k := by
    have hkeys : ∀ op ∈ fewCalls, (op.key?.all fun k => wrenMapIsValidKey zeroRanges k && !isObj k) = true := by decide
    intro op hop k hkey
    have hall := hkeys op hop
    rw [hkey] at hall
    simp only [Option.all_some, Bool.and_eq_true, Bool.not_eq_true'] at hall
    obtain ⟨hvalid, hobj⟩ := hall
    refine ⟨hvalid, fun _ _ _ hk _ => ?_⟩
    rw [hobj] at hk
    cases hk
  have hfit : Transition.Guarded (Session.step (tagged zeroRanges)) Session.Fits {} fewCalls := by decide +kernel
  obtain ⟨s, hs, ha, -⟩ := taggedMap_represents zeroRanges hk hfit
  exact ⟨s, hs, ha⟩

/-- A valid key that is not there, though an equal one is. -/
example : wrenValuesEqual zeroRanges (objVal 8) (objVal 16) = true ∧
    wrenMapIsValidKey zeroRanges (objVal 8) = true ∧ wrenMapIsValidKey zeroRanges (objVal 16) = true ∧
    (Transition.run (Session.step (tagged zeroRanges)) {} [.set (objVal 8) nullVal, .get (objVal 16)]).map Session.answers =
      some [undefinedVal] := by
  decide +kernel

/-! ### Loops over a map -/

/-- The 64 bits of a value, where `bits` are those of the numbers. -/
def ofValue (bits : ℚ → UInt64) : Value → UInt64
  | .undefined => undefinedVal
  | .null => nullVal
  | .bool b => boolVal b
  | .num x => bits x
  | .obj address => objVal (.ofNat address)

/-- The values of the language, compared and hashed by their bits. -/
def values (objects : Objects) (bits : ℚ → UInt64) : Representation Value :=
  boxed (fun v => hashValue objects (ofValue bits v)) fun a b => wrenValuesEqual objects (ofValue bits a) (ofValue bits b)

lemma coherent_values (objects : Objects) (bits : ℚ → UInt64) :
    Coherent (values objects bits).valuesEqual (values objects bits).hash fun v => Keys objects (ofValue bits v) where
  refl _ := (coherent objects).refl _
  symm h := (coherent objects).symm h
  trans h h' := (coherent objects).trans h h'
  hash_eq ha hb h := (coherent objects).hash_eq ha hb h

/-- **A loop over a map** visits each key that the calls have left in it once, with its last value, and nothing else. -/
theorem visited_of_run (objects : Objects) (bits : ℚ → UInt64) {ops : List (Op Value)}
    (hk : ∀ op ∈ ops, ∀ k ∈ op.key?, Keys objects (ofValue bits k)) (hreal : ∀ op ∈ ops, op.Real)
    (hfit : Transition.Guarded (Session.step (values objects bits)) Session.Fits {} ops) :
    ∃ s m, Transition.run (Session.step (values objects bits)) {} ops = some s ∧
      m.capacity = s.map.capacity ∧ m.count = s.map.count ∧ m.entries = s.map.entries.map (fun e => ⟨e.key, e.value⟩) ∧
      ∀ n, m.capacity.toNat < n → ∃ ps, forEach m n .null = some ps ∧ Apart (values objects bits).valuesEqual ps ∧
        (∀ p ∈ ps, Keys objects (ofValue bits p.1) ∧ (Dictionary.run (values objects bits) ops).f p.1 = some p.2) ∧
        ∀ k, Keys objects (ofValue bits k) → ∀ v, (Dictionary.run (values objects bits) ops).f k = some v ↔
          ∃ p ∈ ps, (values objects bits).valuesEqual p.1 k = true ∧ p.2 = v :=
  loop_of_run (coherent_values objects bits) not_keys_undefined hk hreal hfit

/-- The bits of 1, 2 and 3. -/
def fewBits (x : ℚ) : UInt64 :=
  if x = 1 then 0x3ff0000000000000 else if x = 2 then 0x4000000000000000 else if x = 3 then 0x4008000000000000 else 0

/-- A key that is there, one that is replaced, one that is taken out, and a range. -/
def fewKeys : List (Op Value) :=
  [.set .null (.num 1), .set (.num 2) .null, .set (.bool true) .null, .set .null (.num 3), .removeKey (.num 2),
    .set (.obj 8) (.num 2)]

lemma keys_fewKeys : ∀ op ∈ fewKeys, ∀ k ∈ op.key?, Keys zeroRanges (ofValue fewBits k) := by
  have hvalid : ∀ op ∈ fewKeys, (op.key?.all fun k => wrenMapIsValidKey zeroRanges (ofValue fewBits k)) = true := by
    decide +kernel
  have hplain : ∀ op ∈ fewKeys, (op.key?.all fun k => asObj (ofValue fewBits k) ≠ 16) = true := by decide +kernel
  intro op hop k hk
  have h1 := hvalid op hop
  have h2 := hplain op hop
  rw [hk] at h1 h2
  refine ⟨h1, fun start stop i _ hr => ?_⟩
  simp only [zeroRanges] at hr
  split_ifs at hr with h8 h16
  · cases hr
    exact ⟨show (0 : UInt64) ≠ signBit by decide, show (0x3ff0000000000000 : UInt64) ≠ signBit by decide⟩
  · exact absurd h16 (by simpa using h2)

theorem visited_of_run_fewKeys :
    ∃ s m, Transition.run (Session.step (values zeroRanges fewBits)) {} fewKeys = some s ∧
      m.entries = s.map.entries.map (fun e => (⟨e.key, e.value⟩ : MapEntry)) ∧
      ∃ ps, forEach m (m.capacity.toNat + 1) .null = some ps ∧ Apart (values zeroRanges fewBits).valuesEqual ps := by
  obtain ⟨s, m, hs, -, -, he, h⟩ := visited_of_run zeroRanges fewBits keys_fewKeys (by decide +kernel) (by decide +kernel)
  obtain ⟨ps, hps, ha, -⟩ := h _ (Nat.lt_succ_self _)
  exact ⟨s, m, hs, he, ps, hps, ha⟩

end Tagged

end Wrensong.Wren
