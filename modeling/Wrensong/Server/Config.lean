import Wrensong.Ini.Lookup
import Wrensong.Lib.Decimal

/-!
# The configured numbers

How the texts of `port` and `threads` in the section `server` come to the sockets and to the pool: `read_config` converts
them to `int` with `atoi`, the sockets take the low 16 bits of the one, and `pool_start` takes the other for `unsigned`.
Nothing on the way looks at the range.

`decimal` is the number that a text denotes. `effective_iff` says for which texts the server starts with this number, or
with the default where the text is to be refused: the others are those that the conversions cut down to some number all
the same.
-/

namespace Wrensong.Server.Config

open Wrensong.Lib Wrensong.Lib.Bytes Wrensong.Ini

/-! ### Reading the configuration -/

/-- `ini_table_get_entry_as_int`: the value to store, or false. -/
def iniTableGetEntryAsInt (t : IniTable) (sectionName key : CString) : Option Int :=
  (iniTableGetEntry t sectionName key).map fun val => atoi val.val

/-- `ini_table_get_entry_as_bool`: the value to store, or false. -/
def iniTableGetEntryAsBool (t : IniTable) (sectionName key : CString) : Option Bool :=
  (iniTableGetEntry t sectionName key).map fun val => val.val = bytes "on" ∨ val.val = bytes "true"

/-- The variables `port`, `threads` and `ipv6`, with their initial values. -/
structure Settings where
  port : Int := 40000
  threads : Int := 16
  ipv6 : Bool := false
  deriving DecidableEq, Repr

/-- The names of the section and of its keys. -/
def serverName : CString := .ofBlock (bytes "server")
def portKey : CString := .ofBlock (bytes "port")
def threadsKey : CString := .ofBlock (bytes "threads")
def ipv6Key : CString := .ofBlock (bytes "ipv6")

/-- `read_config`. There is no table where the file could not be read. -/
def readConfig : Option IniTable → Settings
  | none => {}
  | some config =>
    { port := (iniTableGetEntryAsInt config serverName portKey).getD ({} : Settings).port
      threads := (iniTableGetEntryAsInt config serverName threadsKey).getD ({} : Settings).threads
      ipv6 := (iniTableGetEntryAsBool config serverName ipv6Key).getD ({} : Settings).ipv6 }

/-! ### Starting the server -/

/-- The conversion to `uint16_t` in the argument of `htons`. -/
def toUint16 (n : Int) : ℕ := (n % 2 ^ 16).toNat

/-- The conversion from `int` to `unsigned`. -/
def toUnsigned (n : Int) : ℕ := (n % 2 ^ 32).toNat

/-- `struct pool` as far as its size goes: the threads it is to have, and the places for them in its block. -/
structure Pool where
  nthreads : ℕ
  places : ℕ
  deriving DecidableEq, Repr

/-- `pool_start`: the block has one place, and `threads - 1` more. -/
def poolStart (threads : ℕ) : Pool := ⟨threads, 1 + toUnsigned (threads - 1)⟩

/-- `http_start`. -/
def httpStart (threadCount : Int) : Pool := poolStart (toUnsigned threadCount)

/-- What `main` starts: the ports that its sockets are bound to, and the pool. -/
structure Started where
  ports : List ℕ
  pool : Pool
  deriving DecidableEq, Repr

/-- The ports in `sin4` and, if it is used, `sin6`. -/
def Settings.ports (s : Settings) : List ℕ := toUint16 s.port :: if s.ipv6 then [toUint16 s.port] else []

/-- `main`, where the sockets can be bound. -/
def main (config : Option IniTable) : Started := ⟨(readConfig config).ports, httpStart (readConfig config).threads⟩

/-- The places are enough for the threads, however many there are. -/
lemma nthreads_le_places (n : Int) : (httpStart n).nthreads ≤ (httpStart n).places := by
  have hlt : toUnsigned n < 2 ^ 32 := by
    unfold toUnsigned
    omega
  unfold httpStart poolStart
  generalize toUnsigned n = k at hlt
  simp only [toUnsigned]
  omega

/-! ### What a text denotes -/

/-- The number that a text of an optional sign and at least one digit denotes. -/
def decimal (v : List UInt8) : Option Int :=
  let (sign, digits) := signOf v
  if digits ≠ [] ∧ digits.all isDigit then
    some (sign * (Nat.ofDigits 10 (digits.reverse.map fun b => b.toNat - 48) : ℕ))
  else none

/-- The number that a text denotes, if it is one from 1 to `hi`. -/
def inRange (hi : Int) (v : List UInt8) : Option Int := (decimal v).filter fun n => 1 ≤ n ∧ n ≤ hi

/-- The configured numbers take effect as they are written, and where the text is to be refused, the default does. -/
def Effective (t : IniTable) : Prop :=
  (∀ v, iniTableGetEntry t serverName portKey = some v → ∀ p ∈ (main (some t)).ports,
    (p : Int) = (inRange (2 ^ 16 - 1) v.val).getD 40000) ∧
  ∀ v, iniTableGetEntry t serverName threadsKey = some v →
    ((main (some t)).pool.nthreads : Int) = (inRange (2 ^ 31 - 1) v.val).getD 16

section Decimal

variable {v : List UInt8} {n : Int}

/-- **`strtol` on a number** gives the number, unless it is too large for `long`. -/
lemma strtol_decimal (h : decimal v = some n) : strtol v = max (-2 ^ 63) (min (2 ^ 63 - 1) n) := by
  simp only [decimal] at h
  split_ifs at h with hd
  obtain ⟨hne, hall⟩ := hd
  have hdigits : n = (signOf v).1 * (digitsVal ((signOf v).2.takeWhile isDigit) : ℕ) := by
    rw [List.takeWhile_eq_self_iff.2 (by simpa using hall), digitsVal_eq]
    exact (Option.some.inj h).symm
  -- there is no white space in front
  have hspace : v.dropWhile isSpace = v := by
    rcases signOf_cases v with ⟨t, rfl, -⟩ | ⟨t, rfl, -⟩ | hv
    · rfl
    · rfl
    · rw [hv] at hne hall
      exact dropWhile_isSpace hne hall
  simp only [strtol, hspace, hdigits]

end Decimal

/-! ### What the conversions leave of a number -/

lemma toUint16_atoi (v : List UInt8) : (toUint16 (atoi v) : Int) = strtol v % 2 ^ 16 := by
  have hmod : atoi v % 2 ^ 32 = strtol v % 2 ^ 32 := Int.bmod_emod
  unfold toUint16
  omega

lemma toUnsigned_atoi (v : List UInt8) : (toUnsigned (atoi v) : Int) = strtol v % 2 ^ 32 := by
  have hmod : atoi v % 2 ^ 32 = strtol v % 2 ^ 32 := Int.bmod_emod
  unfold toUnsigned
  omega

/-- What a cut to `m` values leaves of a text is right when the text is in range, or the default by chance. -/
lemma cut_eq_iff {v : List UInt8} {m hi d : Int} (hm : hi < m) (hhi : hi < 2 ^ 63) :
    strtol v % m = (inRange hi v).getD d ↔ (inRange hi v).isSome ∨ strtol v % m = d := by
  cases h : inRange hi v with
  | none => simp
  | some n =>
    obtain ⟨hn, hlo, hle⟩ : decimal v = some n ∧ 1 ≤ n ∧ n ≤ hi := by simpa [inRange] using h
    have hval : strtol v % m = n := by
      rw [strtol_decimal hn, min_eq_right (by omega), max_eq_right (by omega), Int.emod_eq_of_lt (by omega) (by omega)]
    simp [hval]

/-- **When the configured numbers take effect.** The text is a number in range, or one that is cut down to the default. -/
theorem effective_iff (t : IniTable) :
    Effective t ↔
      (∀ v, iniTableGetEntry t serverName portKey = some v →
        (inRange (2 ^ 16 - 1) v.val).isSome ∨ strtol v.val % 2 ^ 16 = 40000) ∧
      ∀ v, iniTableGetEntry t serverName threadsKey = some v →
        (inRange (2 ^ 31 - 1) v.val).isSome ∨ strtol v.val % 2 ^ 32 = 16 := by
  have hport : ∀ v, iniTableGetEntry t serverName portKey = some v →
      ((∀ p ∈ (main (some t)).ports, (p : Int) = (inRange (2 ^ 16 - 1) v.val).getD 40000) ↔
        (inRange (2 ^ 16 - 1) v.val).isSome ∨ strtol v.val % 2 ^ 16 = 40000) := by
    intro v hv
    rw [← cut_eq_iff (by decide) (by decide), ← toUint16_atoi]
    have hread : (readConfig (some t)).port = atoi v.val := by simp [readConfig, iniTableGetEntryAsInt, hv]
    unfold main Settings.ports
    rw [hread]
    split_ifs <;> simp
  have hthreads : ∀ v, iniTableGetEntry t serverName threadsKey = some v →
      (((main (some t)).pool.nthreads : Int) = (inRange (2 ^ 31 - 1) v.val).getD 16 ↔
        (inRange (2 ^ 31 - 1) v.val).isSome ∨ strtol v.val % 2 ^ 32 = 16) := by
    intro v hv
    rw [← cut_eq_iff (by decide) (by decide), ← toUnsigned_atoi]
    have hread : (readConfig (some t)).threads = atoi v.val := by simp [readConfig, iniTableGetEntryAsInt, hv]
    unfold main httpStart poolStart
    rw [hread]
  constructor
  · rintro ⟨h1, h2⟩
    exact ⟨fun v hv => (hport v hv).1 (h1 v hv), fun v hv => (hthreads v hv).1 (h2 v hv)⟩
  · rintro ⟨h1, h2⟩
    exact ⟨fun v hv => (hport v hv).2 (h1 v hv), fun v hv => (hthreads v hv).2 (h2 v hv)⟩

/-- Port 70000 is bound as port 4464. -/
theorem not_effective : ¬ ∀ t, Effective t := by
  intro h
  let t := (iniTableCreateEntry iniTableCreate serverName portKey (.ofBlock (bytes "70000"))).getD iniTableCreate
  have hget : iniTableGetEntry t serverName portKey = some (.ofBlock (bytes "70000")) := by decide +kernel
  have hport := (h t).1 _ hget 4464 (by decide +kernel)
  exact absurd hport (by decide +kernel)

end Wrensong.Server.Config
